import SmallScheme.Builtin.Basic

/-!
Values: data, procedures, and the two values that stand for nothing.

Expressions are values too. A list or closure carries the identity it got when it was made, which
only identity comparison looks at; a closure refers to the scope it was made in.
-/
namespace SmallScheme

/-- The name of a scope in a store. -/
structure ScopeId where
  index : Nat
deriving DecidableEq

inductive Value where
  | number (x : Binary64)
  | bool (b : Bool)
  | string (s : String)
  | symbol (name : String)
  | list (identity : Nat) (items : List Value)
  | nil
  /-- The result of what is evaluated for effect. -/
  | unspecified
  | builtin (op : Builtin)
  | closure (identity : Nat) (params : List String) (body : Value) (scope : ScopeId)

namespace Value

instance : Inhabited Value := ⟨nil⟩

mutual
/-- The text of a value; strings are in quotes. -/
def text : Value → String
  | number x => x.text
  | bool b => Datum.boolText b
  | string s => s!"\"{s}\""
  | symbol name => name
  | list _ items => "(" ++ " ".intercalate (texts items) ++ ")"
  | nil => "null"
  | unspecified => "#<unspecified>"
  | builtin op => s!"#<builtin-function:{op.name}>"
  | closure .. => "#<procedure>"
/-- The texts of several values. -/
def texts : List Value → List String
  | [] => []
  | v :: vs => v.text :: texts vs
end

@[simp]
theorem texts_eq_map (vs : List Value) : texts vs = vs.map text := by
  induction vs with
  | nil => rfl
  | cons v vs ih => simp [texts, ih]

/-- The text that is shown for a value: strings are without quotes. -/
def displayText : Value → String
  | string s => s
  | v => v.text

mutual
/-- The text of a value in reports: every procedure looks alike, and so does what stands for
nothing. -/
def reportText : Value → String
  | nil | unspecified => "null"
  | list _ items => "(" ++ " ".intercalate (reportTexts items) ++ ")"
  | builtin _ | closure .. => "#<procedure>"
  | v => v.text
/-- The texts of several values in reports. -/
def reportTexts : List Value → List String
  | [] => []
  | v :: vs => v.reportText :: reportTexts vs
end

@[simp]
theorem reportTexts_eq_map (vs : List Value) : reportTexts vs = vs.map reportText := by
  induction vs with
  | nil => rfl
  | cons v vs ih => simp [reportTexts, ih]

/-- Whether a value counts as true. The empty list does; zero, not-a-number and the empty string do
not. -/
def isTruthy : Value → Bool
  | bool b => b
  | number x => !x.same 0 && !x.isNaN
  | string s => s ≠ ""
  | nil | unspecified => false
  | symbol _ | list .. | builtin _ | closure .. => true

/-- Whether a value is nil or the empty list. -/
def isNil : Value → Bool
  | nil => true
  | list _ items => items.isEmpty
  | _ => false

def isProcedure : Value → Bool
  | builtin _ | closure .. => true
  | _ => false

/-- The items of a list; nil has none. -/
def items? : Value → Option (List Value)
  | list _ items => some items
  | nil => some []
  | _ => none

/-- The text of a string literal: a symbol that is still in its quotes. -/
def literal? : Value → Option String
  | symbol name => (Text.unquoted? name.toList).map String.ofList
  | _ => none

/-- Identity: lists and closures are compared by identity, all else by content. -/
def isIdentical : Value → Value → Bool
  | number x, number y => x.same y
  | bool a, bool b => a = b
  | string s, string t => s = t
  | symbol s, symbol t => s = t
  | nil, nil | unspecified, unspecified => true
  | list i _, list j _ => i = j
  | builtin p, builtin q => p = q
  | closure i .., closure j .. => i = j
  | _, _ => false

mutual
/-- Equality of content. Closures are compared by identity. -/
def same : Value → Value → Bool
  | number x, number y => x.same y
  | bool a, bool b => a = b
  | string s, string t => s = t
  | symbol s, symbol t => s = t
  | list _ xs, list _ ys => sameAll xs ys
  | nil, nil | unspecified, unspecified => true
  | builtin p, builtin q => p = q
  | closure i .., closure j .. => i = j
  | _, _ => false
/-- Equality of content, item by item. -/
def sameAll : List Value → List Value → Bool
  | [], [] => true
  | x :: xs, y :: ys => x.same y && sameAll xs ys
  | _, _ => false
end

end Value

/-- What structural equality compares. Symbols and strings are alike, both zeros are one number, and
everything without a data representation is `null`. -/
inductive Canonical where
  | null
  | bool (b : Bool)
  | number (quanta : Int)
  | string (s : String)
  | list (items : List Canonical)

namespace Canonical

mutual
/-- Equality of canonical forms. -/
def same : Canonical → Canonical → Bool
  | null, null => true
  | bool a, bool b => a = b
  | number m, number n => m = n
  | string s, string t => s = t
  | list xs, list ys => sameAll xs ys
  | _, _ => false
/-- Equality of canonical forms, item by item. -/
def sameAll : List Canonical → List Canonical → Bool
  | [], [] => true
  | x :: xs, y :: ys => x.same y && sameAll xs ys
  | _, _ => false
end

def ofNumber : Binary64 → Canonical
  | .finite negative n _ => number (Binary64.signed negative n)
  | _ => null

end Canonical

namespace Value

mutual
/-- The canonical form of a value. -/
def canonical : Value → Canonical
  | number x => .ofNumber x
  | bool b => .bool b
  | string s | symbol s => .string s
  | list _ items => .list (canonicals items)
  | nil | unspecified | builtin _ | closure .. => .null
/-- The canonical forms of several values. -/
def canonicals : List Value → List Canonical
  | [] => []
  | v :: vs => v.canonical :: canonicals vs
end

@[simp]
theorem canonicals_eq_map (vs : List Value) : canonicals vs = vs.map canonical := by
  induction vs with
  | nil => rfl
  | cons v vs ih => simp [canonicals, ih]

/-- Structural equality. -/
def isEqual (v w : Value) : Bool := v.canonical.same w.canonical

end Value

end SmallScheme
