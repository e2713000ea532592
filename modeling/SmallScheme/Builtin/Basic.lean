import SmallScheme.Arity
import SmallScheme.Binary64.Elementary

/-!
The built-in procedures: their names, the numbers of arguments they take, and their order.
-/
namespace SmallScheme

/-- Functions of one number. -/
inductive MathFunction where
  | abs | acos | acosh | asin | asinh | atan | atanh | cbrt | ceil | cos | cosh | exp | expm1
  | floor | fround | clz32 | log | log10 | log1p | log2 | round | sign | sin | sinh | sqrt | tan
  | tanh | trunc
deriving DecidableEq

namespace MathFunction

def name : MathFunction → String
  | abs => "abs" | acos => "acos" | acosh => "acosh" | asin => "asin" | asinh => "asinh"
  | atan => "atan" | atanh => "atanh" | cbrt => "cbrt" | ceil => "ceil" | cos => "cos"
  | cosh => "cosh" | exp => "exp" | expm1 => "expm1" | floor => "floor" | fround => "fround"
  | clz32 => "clz32" | log => "log" | log10 => "log10" | log1p => "log1p" | log2 => "log2"
  | round => "round" | sign => "sign" | sin => "sin" | sinh => "sinh" | sqrt => "sqrt"
  | tan => "tan" | tanh => "tanh" | trunc => "trunc"

def apply : MathFunction → Binary64 → Binary64
  | abs => Binary64.abs | acos => Binary64.acos | acosh => Binary64.acosh
  | asin => Binary64.asin | asinh => Binary64.asinh | atan => Binary64.atan
  | atanh => Binary64.atanh | cbrt => Binary64.cbrt | ceil => Binary64.ceil
  | cos => Binary64.cos | cosh => Binary64.cosh | exp => Binary64.exp
  | expm1 => Binary64.expm1 | floor => Binary64.floor | fround => Binary64.toSingle
  | clz32 => fun x => Binary64.ofNat x.leadingZeros | log => Binary64.log
  | log10 => Binary64.log10 | log1p => Binary64.log1p | log2 => Binary64.log2
  | round => Binary64.round | sign => Binary64.sign | sin => Binary64.sin
  | sinh => Binary64.sinh | sqrt => Binary64.sqrt | tan => Binary64.tan
  | tanh => Binary64.tanh | trunc => Binary64.trunc

def all : List MathFunction :=
  [abs, acos, acosh, asin, asinh, atan, atanh, cbrt, ceil, cos, cosh, exp, expm1, floor, fround,
    clz32, log, log10, log1p, log2, round, sign, sin, sinh, sqrt, tan, tanh, trunc]

end MathFunction

/-- Order relations between numbers. -/
inductive Comparison where
  | greater | less | greaterOrEqual | lessOrEqual
deriving DecidableEq

namespace Comparison

def name : Comparison → String
  | greater => ">" | less => "<" | greaterOrEqual => ">=" | lessOrEqual => "<="

def holds : Comparison → Binary64 → Binary64 → Bool
  | greater, x, y => y.less x
  | less, x, y => x.less y
  | greaterOrEqual, x, y => y.atMost x
  | lessOrEqual, x, y => x.atMost y

end Comparison

/-- Procedures that only compute from their arguments. -/
inductive Primitive where
  | math (f : MathFunction)
  | max | min | pow | atan2 | hypot | imul
  | add | sub | mul | div | remainder | modulo
  | compare (c : Comparison)
  | numEqual | equal | eq
  | not | or | and
  | list | isList | isNull | isPair | length | car | cdr | cons | append | reverse
  | error
deriving DecidableEq

namespace Primitive

def name : Primitive → String
  | math f => f.name
  | max => "max" | min => "min" | pow => "pow" | atan2 => "atan2" | hypot => "hypot"
  | imul => "imul"
  | add => "+" | sub => "-" | mul => "*" | div => "/"
  | remainder => "remainder" | modulo => "modulo"
  | compare c => c.name
  | numEqual => "=" | equal => "equal?" | eq => "eq?"
  | not => "not" | or => "or" | and => "and"
  | list => "list" | isList => "list?" | isNull => "null?" | isPair => "pair?"
  | length => "length" | car => "car" | cdr => "cdr" | cons => "cons"
  | append => "append" | reverse => "reverse"
  | error => "error"

def arity : Primitive → Arity
  | math _ => .exactly 1
  | max | min => .atLeast 1
  | pow | atan2 | imul => .exactly 2
  | hypot => .any
  | add | mul => .any
  | sub | div => .atLeast 1
  | remainder | modulo => .exactly 2
  | compare _ => .exactly 2
  | numEqual | equal | eq => .exactly 2
  | not => .exactly 1
  | or | and => .any
  | list => .any
  | isList | isNull | isPair | length | car | cdr => .exactly 1
  | cons => .exactly 2
  | append => .any
  | reverse => .exactly 1
  | error => .any

end Primitive

/-- Procedures that apply the procedure they are given. -/
inductive Combinator where
  | map | filter | fold | reduce | apply
deriving DecidableEq

namespace Combinator

def name : Combinator → String
  | map => "map" | filter => "filter" | fold => "fold" | reduce => "reduce" | apply => "apply"

def arity : Combinator → Arity
  | map | filter => .exactly 2
  | fold | reduce => .exactly 3
  | apply => .exactly 2

end Combinator

inductive Builtin where
  | primitive (p : Primitive)
  | combinator (c : Combinator)
  /-- Draws a number. -/
  | random
  /-- Shows a value. -/
  | display
deriving DecidableEq

namespace Builtin

def name : Builtin → String
  | primitive p => p.name
  | combinator c => c.name
  | random => "random"
  | display => "display"

def arity : Builtin → Arity
  | primitive p => p.arity
  | combinator c => c.arity
  | random => .exactly 0
  | display => .exactly 1

/-- Whether a procedure reaches beyond its arguments, to apply a procedure or to show a value. -/
def isApplicative : Builtin → Bool
  | combinator _ | display => true
  | primitive _ | random => false

/-- Every built-in procedure, in the order in which they are listed. -/
def all : List Builtin :=
  MathFunction.all.map (primitive ∘ .math) ++
  ([.max, .min, .pow, .atan2, .hypot, .imul] : List Primitive).map primitive ++
  [random] ++
  ([.add, .sub, .mul, .div, .remainder, .modulo,
    .compare .greater, .compare .less, .compare .greaterOrEqual, .compare .lessOrEqual,
    .numEqual, .equal, .eq, .not, .or, .and,
    .list, .isList, .isNull, .isPair, .length, .car, .cdr, .cons, .append, .reverse]
      : List Primitive).map primitive ++
  ([.map, .filter, .fold, .reduce, .apply] : List Combinator).map combinator ++
  [display, primitive .error]

def ofName? (name : String) : Option Builtin := all.find? (·.name = name)

end Builtin

end SmallScheme
