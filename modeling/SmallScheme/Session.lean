import SmallScheme.Eval

/-!
Sessions: programs evaluated one after another on one global scope.
-/
namespace SmallScheme

/-- Evaluates forms in order in a scope; the last one gives the value, and none gives `last`. -/
def evalForms (depth : Nat) (s : ScopeId) (last : Value) : List Datum → Action Value
  | [] => return last
  | d :: ds => do
    let v ← eval depth (← Action.load d) s
    evalForms depth s v ds

/-- Evaluates a program in a scope. The forms before a fault are evaluated before it is raised. -/
def Program.eval (depth : Nat) (s : ScopeId) (p : Program) : Action Value := do
  let v ← evalForms depth s .unspecified p.forms
  match p.fault? with
  | none => return v
  | some fault => throw (.syntactic fault)

/-- The mathematical constants that are bound at the start. -/
def constants : List (String × Decimal) :=
  let pi : Decimal := ⟨314159265358979323846264338327950288, -35⟩
  let e : Decimal := ⟨271828182845904523536028747135266250, -35⟩
  [("pi", pi), ("e", e), ("E", e), ("PI", pi),
    ("LN2", ⟨693147180559945309417232121458176568, -36⟩),
    ("LN10", ⟨230258509299404568401799145468436421, -35⟩),
    ("LOG2E", ⟨144269504088896340735992468100189214, -35⟩),
    ("LOG10E", ⟨434294481903251827651128918916605082, -36⟩),
    ("SQRT2", ⟨141421356237309504880168872420969808, -35⟩),
    ("SQRT1_2", ⟨707106781186547524400844362104849039, -36⟩)]

/-- What every session starts with: the built-in procedures, the constants and `null`. -/
def globalBindings : Bindings :=
  Bindings.overlay ∅
    (Builtin.all.map (fun op => (op.name, Value.builtin op)) ++
      constants.map (fun (name, d) => (name, Value.number (d.toBinary64 false))) ++
      [("null", Value.nil)])

/-- What a session is set up with. -/
structure Setup where
  /-- How deep evaluation may nest. -/
  depth : Nat
  /-- The random numbers that a session draws, in order. -/
  numbers : Nat → Binary64 := fun _ => .zero false

structure Session where
  store : Store
  global : ScopeId
  depth : Nat

/-- The outcome of an action in a session: its result and the values it showed. -/
structure Outcome (α : Type) where
  result : Except Error α
  shown : List Value

namespace Session

/-- A session with a fresh global scope. -/
def start (setup : Setup) : Session :=
  let (global, store) := Store.newScope { numbers := setup.numbers } globalBindings
  { store, global, depth := setup.depth }

/-- Runs an action in a session. -/
def run (ses : Session) (a : Action α) : Outcome α × Session :=
  let (result, store) := a.perform { ses.store with shown := #[] }
  ({ result, shown := store.shown.toList }, { ses with store })

/-- Evaluates every form of a text, up to the first that fails. -/
def evaluate (ses : Session) (text : String) : Outcome Value × Session :=
  ses.run ((Program.ofText text).eval ses.depth ses.global)

/-- Evaluates one expression. -/
def evalExpr (ses : Session) (e : Value) : Outcome Value × Session :=
  ses.run (eval ses.depth e ses.global)

/-- Binds a name globally. -/
def define (ses : Session) (name : String) (v : Value) : Session :=
  { ses with store := ses.store.define ses.global name v }

def get? (ses : Session) (name : String) : Option Value := ses.store.get? ses.global name

def names (ses : Session) : List String := ses.store.names ses.global

/-- The bindings of the global scope as they are now. -/
def bindings (ses : Session) : Bindings := ses.store.bindings ses.global

/-- What a bound value is, in one line without the name. -/
def description (name : String) : Value → String
  | .builtin op =>
    if op.name = name then s!"builtin procedure taking {op.arity.text}"
    else s!"alias of builtin {op.name}"
  | .closure _ params _ _ =>
    let names := " ".intercalate params
    s!"procedure ({names})"
  | v => v.reportText

/-- One line on what a name refers to, if it refers to anything. -/
def describe? (ses : Session) (name : String) : Option String :=
  match SpecialForm.ofName? name with
  | some _ => some s!"{name}: special form"
  | none => (ses.get? name).map fun v =>
    let text := description name v
    s!"{name}: {text}"

end Session

end SmallScheme
