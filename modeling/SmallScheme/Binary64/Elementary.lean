import SmallScheme.Binary64.Word

/-!
Elementary functions. The platform computes exponentials, logarithms, circular and hyperbolic
functions on the 64-bit encoding; the variants that keep precision near zero and the inverse of the
hyperbolic tangent are expressed through them.
-/
namespace SmallScheme.Binary64

/-- Computes a function on the platform. -/
def onPlatform (f : Float → Float) (x : Binary64) : Binary64 :=
  ofBits (f (Float.ofBits x.toBits)).toBits

/-- Computes a function of two numbers on the platform. -/
def onPlatform₂ (f : Float → Float → Float) (x y : Binary64) : Binary64 :=
  ofBits (f (Float.ofBits x.toBits) (Float.ofBits y.toBits)).toBits

def sin : Binary64 → Binary64 := onPlatform Float.sin
def cos : Binary64 → Binary64 := onPlatform Float.cos
def tan : Binary64 → Binary64 := onPlatform Float.tan
def asin : Binary64 → Binary64 := onPlatform Float.asin
def acos : Binary64 → Binary64 := onPlatform Float.acos
def atan : Binary64 → Binary64 := onPlatform Float.atan
def sinh : Binary64 → Binary64 := onPlatform Float.sinh
def cosh : Binary64 → Binary64 := onPlatform Float.cosh
def tanh : Binary64 → Binary64 := onPlatform Float.tanh
def asinh : Binary64 → Binary64 := onPlatform Float.asinh
def acosh : Binary64 → Binary64 := onPlatform Float.acosh
def exp : Binary64 → Binary64 := onPlatform Float.exp
def log : Binary64 → Binary64 := onPlatform Float.log
def log2 : Binary64 → Binary64 := onPlatform Float.log2
def log10 : Binary64 → Binary64 := onPlatform Float.log10
def pow : Binary64 → Binary64 → Binary64 := onPlatform₂ Float.pow
def atan2 : Binary64 → Binary64 → Binary64 := onPlatform₂ Float.atan2

/-- The logarithm of `1 + x`. What `1 + x` loses in rounding is added to the first order. -/
def log1p (x : Binary64) : Binary64 :=
  let u := 1 + x
  if u.same 1 then x
  else if u.isFinite && !u.same 0 then u.log + (x - (u - 1)) / u
  else u.log

/-- The exponential minus one. What `exp x` loses in rounding is added to the first order. -/
def expm1 (x : Binary64) : Binary64 :=
  let u := x.exp
  if u.same 1 then x
  else if (u - 1).same (-1) then -1
  else if u.isFinite then (u - 1) + u * (x - u.log)
  else u

/-- The inverse of the hyperbolic tangent, half the logarithm of `1 + 2 x / (1 - x)`. The quotient
loses precision near `-1`. -/
def atanh (x : Binary64) : Binary64 := ofRatio false 1 2 * (2 * x / (1 - x)).log1p

end SmallScheme.Binary64
