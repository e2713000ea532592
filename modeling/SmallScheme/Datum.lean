import SmallScheme.Numeral
import SmallScheme.Token

/-!
Data: what program text denotes before it is evaluated, and reading it from tokens.

A quoted literal is a symbol that keeps its quotes until it is evaluated.
-/
namespace SmallScheme

inductive Datum where
  | number (x : Binary64)
  | bool (b : Bool)
  | symbol (name : String)
  | list (items : List Datum)

/-- What can be wrong with a sequence of tokens. -/
inductive SyntaxFault where
  | unexpectedEnd
  | unexpectedClose
deriving DecidableEq

def SyntaxFault.message : SyntaxFault → String
  | unexpectedEnd => "unexpected EOF"
  | unexpectedClose => "unexpected close paren"

namespace Datum

def boolText (b : Bool) : String := if b then "#t" else "#f"

mutual
/-- The text of a datum. -/
def text : Datum → String
  | number x => x.text
  | bool b => boolText b
  | symbol name => name
  | list items => "(" ++ " ".intercalate (texts items) ++ ")"
/-- The texts of several data. -/
def texts : List Datum → List String
  | [] => []
  | d :: ds => d.text :: texts ds
end

@[simp]
theorem texts_eq_map (ds : List Datum) : texts ds = ds.map text := by
  induction ds with
  | nil => rfl
  | cons d ds ih => simp [texts, ih]

/-- The datum that a word stands for: a boolean, a number or the symbol of that name. -/
def ofWord (word : String) : Datum :=
  if word = "#t" || word = "#true" then bool true
  else if word = "#f" || word = "#false" then bool false
  else
    match Numeral.read? word with
    | some x => number x
    | none => symbol word

/-- Reads on inside open lists. Each list of `stack` holds the items read so far in reverse, the
innermost first; the result comes with the tokens that are left. -/
def readIn (stack : List (List Datum)) : List Token → Except SyntaxFault Datum × List Token
  | [] => (.error .unexpectedEnd, [])
  | .lparen :: ts => readIn ([] :: stack) ts
  | .rparen :: ts =>
    match stack with
    | [] => (.error .unexpectedClose, ts)
    | [items] => (.ok (list items.reverse), ts)
    | items :: outer :: rest => readIn ((list items.reverse :: outer) :: rest) ts
  | .word w :: ts =>
    match stack with
    | [] => (.ok (ofWord w), ts)
    | items :: rest => readIn ((ofWord w :: items) :: rest) ts

/-- Reads one datum from the front of the tokens. -/
def read (ts : List Token) : Except SyntaxFault Datum × List Token := readIn [] ts

theorem length_readIn_le (stack : List (List Datum)) (ts : List Token) :
    (readIn stack ts).2.length ≤ ts.length := by
  induction ts generalizing stack with
  | nil => simp [readIn]
  | cons t ts ih =>
    cases t with
    | lparen => exact Nat.le_succ_of_le (ih _)
    | rparen =>
      rcases stack with _ | ⟨items, _ | ⟨outer, rest⟩⟩
      · simp [readIn]
      · simp [readIn]
      · exact Nat.le_succ_of_le (ih _)
    | word w =>
      rcases stack with _ | ⟨items, rest⟩
      · simp [readIn]
      · exact Nat.le_succ_of_le (ih _)

/-- Reading consumes at least one token. -/
theorem length_read_lt {ts : List Token} (h : ts ≠ []) : (read ts).2.length < ts.length := by
  rcases ts with _ | ⟨t, ts⟩
  · contradiction
  cases t with
  | lparen => exact Nat.lt_succ_of_le (length_readIn_le _ ts)
  | rparen => simp [read, readIn]
  | word w => simp [read, readIn]

end Datum

/-- A program as far as it can be read: its forms, and the fault that ends it early. -/
structure Program where
  forms : List Datum
  fault? : Option SyntaxFault

namespace Program

/-- Reads forms until the tokens are used up or one cannot be read. -/
def ofTokens (ts : List Token) : Program :=
  if h : ts = [] then ⟨[], none⟩
  else
    match (Datum.read ts).1 with
    | .error fault => ⟨[], some fault⟩
    | .ok form =>
      have := Datum.length_read_lt h
      let rest := ofTokens (Datum.read ts).2
      ⟨form :: rest.forms, rest.fault?⟩
termination_by ts.length

def ofText (text : String) : Program := ofTokens (tokenize text)

/-- The forms of a program that can be read to its end. -/
def complete (p : Program) : Except SyntaxFault (List Datum) :=
  match p.fault? with
  | none => .ok p.forms
  | some fault => .error fault

end Program

end SmallScheme
