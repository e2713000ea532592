import SmallScheme.Store

/-!
Special forms: the expressions whose arguments are not all evaluated first.

A form is evaluated with the help of `run`, which evaluates an expression in a scope. Body forms
run in new scopes, so that their definitions and assignments end with them.
-/
namespace SmallScheme

inductive SpecialForm where
  | quote | conditional | cond | define | assign | lambda | letIn | letSeq | sequence
deriving DecidableEq

namespace SpecialForm

def name : SpecialForm → String
  | quote => "quote" | conditional => "if" | cond => "cond" | define => "define"
  | assign => "set!" | lambda => "lambda" | letIn => "let" | letSeq => "let*"
  | sequence => "begin"

def arity : SpecialForm → Arity
  | quote => .any
  | conditional => .between 2 3
  | cond => .atLeast 1
  | define => .atLeast 2
  | assign => .exactly 2
  | lambda => .exactly 2
  | letIn => .atLeast 2
  | letSeq => .atLeast 2
  | sequence => .atLeast 1

def all : List SpecialForm :=
  [quote, conditional, cond, define, assign, lambda, letIn, letSeq, sequence]

def ofName? (name : String) : Option SpecialForm := all.find? (·.name = name)

/-- The special form that a list with the given head is. -/
def ofHead? : Value → Option SpecialForm
  | .symbol name => ofName? name
  | _ => none

/-- The failure of a form that got a number of arguments it has no meaning for. -/
def wrongCount (form : SpecialForm) (expected : Nat) (args : List Value) : Error :=
  .arity expected args.length (some form.name)

/-- The names of parameters, which have to be symbols. -/
def paramNames (form : SpecialForm) : List Value → Except Error (List String)
  | [] => .ok []
  | .symbol name :: vs => do return name :: (← paramNames form vs)
  | v :: _ => .error (.type (.parameterNotSymbol form.name v.text))

/-- A binding: a list of a symbol and an expression. -/
def bindingPair? (v : Value) : Option (String × Value) :=
  match v.items? with
  | some [.symbol name, e] => some (name, e)
  | _ => none

/-- The names and expressions of a list of bindings. -/
def bindingPairs (form : SpecialForm) (bindings : Value) : Except Error (List (String × Value)) :=
  let pairs? := match bindings with
    | .list _ items => items.mapM bindingPair?
    | _ => none
  match pairs? with
  | some pairs => .ok pairs
  | none => .error (.type (.malformedBindings form.name bindings.text))

section

variable (run : Value → ScopeId → Action Value)

/-- Evaluates expressions in order; the last one gives the value, and none gives nil. -/
def runAll (s : ScopeId) : List Value → Action Value
  | [] => return .nil
  | [e] => run e s
  | e :: es => do
    let _ ← run e s
    runAll s es

/-- Evaluates the body of the first clause whose test is true. -/
def runClauses (s : ScopeId) : List Value → Action Value
  | [] => return .nil
  | .list _ (test :: e :: body) :: clauses => do
    match test with
    | .symbol "else" => runAll run s (e :: body)
    | _ =>
      if (← run test s).isTruthy then runAll run s (e :: body) else runClauses s clauses
  | clause :: _ => throw (.type (.malformedClause clause.text))

def runDefine (s : ScopeId) (args : List Value) : Action Value := do
  match args with
  | [.symbol name, e] =>
    Action.define s name (← run e s)
    return .unspecified
  | .list _ (.symbol name :: params) :: body =>
    let params ← Action.ofExcept (paramNames define params)
    let body ← match body with
      | [e] => pure e
      | es => Action.newList (.symbol sequence.name :: es)
    Action.define s name (← Action.newClosure params body s)
    return .unspecified
  | .list i items :: _ => throw (.type (.procedureNameNotSymbol (Value.list i items).text))
  | .symbol _ :: _ => throw (wrongCount define 2 args)
  | _ => throw (.type (.nameNotSymbol define.name (args.head?.getD .nil).text))

def runAssign (s : ScopeId) (args : List Value) : Action Value := do
  match args with
  | [.symbol name, e] =>
    if (← get).contains s name then
      Action.set s name (← run e s)
      return .unspecified
    else throw (.unbound name)
  | [v, _] => throw (.type (.nameNotSymbol assign.name v.text))
  | _ => throw (wrongCount assign 2 args)

def runLambda (s : ScopeId) (args : List Value) : Action Value := do
  match args with
  | [.list _ params, body] =>
    Action.newClosure (← Action.ofExcept (paramNames lambda params)) body s
  | [v, _] => throw (.type (.parametersNotList v.text))
  | _ => throw (wrongCount lambda 2 args)

/-- Evaluates the expressions of bindings in one scope. -/
def runBindings (s : ScopeId) : List (String × Value) → Action (List (String × Value))
  | [] => return []
  | (name, e) :: pairs => do
    let v ← run e s
    return (name, v) :: (← runBindings s pairs)

def runLet (s : ScopeId) (args : List Value) : Action Value := do
  match args with
  | bindings :: body =>
    let pairs ← Action.ofExcept (bindingPairs letIn bindings)
    let inner ← Action.extend s (← runBindings run s pairs)
    runAll run inner body
  | [] => throw (wrongCount letIn 2 [])

/-- Evaluates each binding in the scope of those before it and gives the last scope. -/
def runChain (s : ScopeId) : List (String × Value) → Action ScopeId
  | [] => return s
  | (name, e) :: pairs => do
    let v ← run e s
    runChain (← Action.extend s [(name, v)]) pairs

def runLetSeq (s : ScopeId) (args : List Value) : Action Value := do
  match args with
  | bindings :: body =>
    let outer ← Action.extend s []
    let pairs ← Action.ofExcept (bindingPairs letSeq bindings)
    let inner ← runChain run outer pairs
    runAll run inner body
  | [] => throw (wrongCount letSeq 2 [])

def runConditional (s : ScopeId) (args : List Value) : Action Value := do
  match args with
  | test :: consequent :: alternatives =>
    if (← run test s).isTruthy then run consequent s
    else
      match alternatives with
      | [] => return .nil
      | alternative :: _ => run alternative s
  | _ => throw (wrongCount conditional 2 args)

/-- Evaluates a form with the given arguments, whatever their number. -/
def evaluate (s : ScopeId) (args : List Value) : SpecialForm → Action Value
  | quote => return args.head?.getD .nil
  | conditional => runConditional run s args
  | cond => runClauses run s args
  | define => runDefine run s args
  | assign => runAssign run s args
  | lambda => runLambda s args
  | letIn => runLet run s args
  | letSeq => runLetSeq run s args
  | sequence => runAll run s args

end

end SpecialForm

end SmallScheme
