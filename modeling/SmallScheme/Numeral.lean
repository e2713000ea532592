import SmallScheme.Binary64.Decimal

/-!
Numerals: the words that stand for numbers.

A numeral is a decimal with optional sign, fraction and exponent, an unsigned integer below `2^64`
after `0x`, `0o` or `0b`, or the word `Infinity` with an optional sign.
-/
namespace SmallScheme.Numeral

/-- Splits an optional sign off. -/
def sign : List Char → Bool × List Char
  | '-' :: cs => (true, cs)
  | '+' :: cs => (false, cs)
  | cs => (false, cs)

/-- Splits the leading decimal digits off. -/
def digits (cs : List Char) : List Char × List Char :=
  (cs.takeWhile Char.isDigit, cs.dropWhile Char.isDigit)

/-- The value of a digit: decimal digits, then letters of either case. -/
def digitValue (c : Char) : Nat :=
  if c.isDigit then c.toNat - '0'.toNat
  else if c.isLower then c.toNat - 'a'.toNat + 10
  else c.toNat - 'A'.toNat + 10

/-- The value of a string of digits. -/
def value (radix : Nat) (cs : List Char) : Nat :=
  cs.foldl (fun n c => n * radix + digitValue c) 0

/-- The fraction digits after an optional point. -/
def fraction : List Char → List Char × List Char
  | '.' :: cs => digits cs
  | cs => ([], cs)

/-- The exponent, which has to end the numeral. -/
def exponent? : List Char → Option Int
  | [] => some 0
  | c :: cs =>
    if c = 'e' || c = 'E' then
      let (negative, cs) := sign cs
      let (ds, rest) := digits cs
      if ds.isEmpty || !rest.isEmpty then none
      else some (if negative then -(value 10 ds : Int) else value 10 ds)
    else none

/-- Reads a decimal with at least one digit before its exponent. -/
def decimal? (cs : List Char) : Option Binary64 :=
  let (negative, cs) := sign cs
  let (whole, cs) := digits cs
  let (part, cs) := fraction cs
  if whole.isEmpty && part.isEmpty then none
  else (exponent? cs).map fun e =>
    Decimal.toBinary64 negative ⟨value 10 (whole ++ part), e - part.length⟩

/-- Reads a word for an infinity or for not-a-number, in any case and after an optional sign. -/
def special? (cs : List Char) : Option Binary64 :=
  let (negative, cs) := sign cs
  let word := String.ofList (cs.map Char.toLower)
  if word = "inf" || word = "infinity" then some (.infinite negative)
  else if word = "nan" then some .nan
  else none

/-- Reads a number in any of its spellings without a radix. -/
def float? (cs : List Char) : Option Binary64 := (decimal? cs).or (special? cs)

/-- The letters that mark no exponent. -/
def isForeign (c : Char) : Bool := c.isAlpha && c != 'e' && c != 'E'

/-- Reads a number without a radix. Words are turned away by their letters, and not-a-number is no
numeral. -/
def plain? (cs : List Char) : Option Binary64 :=
  if cs.any isForeign then none else (float? cs).filter (!·.isNaN)

def isDigitOf (radix : Nat) (c : Char) : Bool :=
  (c.isDigit || c.isAlpha) && digitValue c < radix

/-- Reads a whole number below `2^64`, after an optional plus sign. -/
def unsigned? (radix : Nat) (cs : List Char) : Option Nat :=
  let ds := if cs.head? = some '+' then cs.tail else cs
  if ds.isEmpty || !ds.all (isDigitOf radix) then none
  else if value radix ds < twoPow 64 then some (value radix ds) else none

/-- Reads a whole number below `2^64` that has no sign. -/
def integer? (radix : Nat) (cs : List Char) : Option Binary64 :=
  if cs.head? = some '+' || cs.head? = some '-' then none else (unsigned? radix cs).map .ofNat

/-- The radix that a marker after a leading zero announces. -/
def radix? (c : Char) : Option Nat :=
  if c = 'x' || c = 'X' then some 16
  else if c = 'o' || c = 'O' then some 8
  else if c = 'b' || c = 'B' then some 2
  else none

/-- Reads a numeral that is not a word. -/
def ofDigits? (cs : List Char) : Option Binary64 :=
  match cs with
  | '0' :: c :: rest =>
    match radix? c with
    | some radix => integer? radix rest
    | none => plain? cs
  | _ => plain? cs

/-- The number that a word stands for, if it is a numeral. -/
def read? (word : String) : Option Binary64 :=
  if word = "Infinity" || word = "+Infinity" then some (.infinite false)
  else if word = "-Infinity" then some (.infinite true)
  else ofDigits? word.toList

end SmallScheme.Numeral
