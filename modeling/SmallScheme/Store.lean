import Std.Data.TreeMap
import SmallScheme.Value

/-!
The store that evaluation works on: scopes, the values shown so far, and the supplies of identities
and random numbers.

Scopes are not linked. Extending a scope copies its bindings into a new one, so that later changes
to either are not seen in the other.
-/
namespace SmallScheme

abbrev Bindings := Std.TreeMap String Value compare

/-- Adds bindings; of several for one name the last counts. -/
def Bindings.overlay (b : Bindings) (more : List (String × Value)) : Bindings :=
  more.foldl (fun b (name, v) => b.insert name v) b

structure Store where
  scopes : Array Bindings := #[]
  /-- The identity of the next list or closure. -/
  nextIdentity : Nat := 0
  /-- The values shown, oldest first. -/
  shown : Array Value := #[]
  /-- The random numbers from 0 up to 1, in the order in which they are drawn. -/
  numbers : Nat → Binary64 := fun _ => .zero false
  /-- How many random numbers were drawn. -/
  draws : Nat := 0

namespace Store

/-- The bindings of a scope; a name that no scope has stands for no bindings. -/
def bindings (st : Store) (s : ScopeId) : Bindings := (st.scopes[s.index]?).getD ∅

def get? (st : Store) (s : ScopeId) (name : String) : Option Value := (st.bindings s)[name]?

def contains (st : Store) (s : ScopeId) (name : String) : Bool := (st.bindings s).contains name

/-- The names bound in a scope, in order. -/
def names (st : Store) (s : ScopeId) : List String := (st.bindings s).keys

/-- Makes a scope with the given bindings. -/
def newScope (st : Store) (b : Bindings) : ScopeId × Store :=
  (⟨st.scopes.size⟩, { st with scopes := st.scopes.push b })

/-- Makes a scope with a copy of the bindings of `s` and more. -/
def extend (st : Store) (s : ScopeId) (more : List (String × Value)) : ScopeId × Store :=
  st.newScope ((st.bindings s).overlay more)

/-- Binds a name in a scope, replacing what it was bound to. -/
def define (st : Store) (s : ScopeId) (name : String) (v : Value) : Store :=
  { st with scopes := st.scopes.modify s.index (·.insert name v) }

/-- Binds a name again that is bound already. -/
def set (st : Store) (s : ScopeId) (name : String) (v : Value) : Except Error Store :=
  if st.contains s name then .ok (st.define s name v) else .error (.unbound name)

end Store

mutual
/-- Makes a value of a datum, taking identities from `next` on; gives the first unused one. -/
def Value.load : Datum → (next : Nat) → Value × Nat
  | .number x, next => (.number x, next)
  | .bool b, next => (.bool b, next)
  | .symbol name, next => (.symbol name, next)
  | .list items, next =>
    let (vs, after) := Value.loadAll items (next + 1)
    (.list next vs, after)
/-- Makes values of several data. -/
def Value.loadAll : List Datum → (next : Nat) → List Value × Nat
  | [], next => ([], next)
  | d :: ds, next =>
    let (v, after) := Value.load d next
    let (vs, last) := Value.loadAll ds after
    (v :: vs, last)
end

/-- A computation on the store that may fail. What it did before it failed stays done. -/
abbrev Action := ExceptT Error (StateM Store)

namespace Action

/-- Runs an action: its result and the store after it. -/
def perform (a : Action α) (st : Store) : Except Error α × Store := a.run.run st

def ofExcept : Except Error α → Action α
  | .ok a => pure a
  | .error e => throw e

/-- Takes an identity that nothing has yet. -/
def freshIdentity : Action Nat :=
  modifyGet fun st => (st.nextIdentity, { st with nextIdentity := st.nextIdentity + 1 })

def newList (items : List Value) : Action Value := do
  return .list (← freshIdentity) items

def newClosure (params : List String) (body : Value) (s : ScopeId) : Action Value := do
  return .closure (← freshIdentity) params body s

def extend (s : ScopeId) (more : List (String × Value)) : Action ScopeId :=
  modifyGet fun st => st.extend s more

def define (s : ScopeId) (name : String) (v : Value) : Action Unit :=
  modify fun st => st.define s name v

/-- Binds a name again that is bound already. -/
def set (s : ScopeId) (name : String) (v : Value) : Action Unit := do
  if (← get).contains s name then define s name v else throw (.unbound name)

/-- The value a name is bound to. -/
def lookup (s : ScopeId) (name : String) : Action Value := do
  match (← get).get? s name with
  | some v => return v
  | none => throw (.unbound name)

/-- Shows a value. -/
def display (v : Value) : Action Unit :=
  modify fun st => { st with shown := st.shown.push v }

def draw : Action Binary64 :=
  modifyGet fun st => (st.numbers st.draws, { st with draws := st.draws + 1 })

/-- Makes a value of a datum. -/
def load (d : Datum) : Action Value :=
  modifyGet fun st =>
    let (v, next) := Value.load d st.nextIdentity
    (v, { st with nextIdentity := next })

end Action

end SmallScheme
