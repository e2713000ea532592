import SmallScheme.Text.Blank
import SmallScheme.Text.Quoted

/-!
Cutting the text of a program into top-level forms without reading it.

Two semicolons start a comment that runs to the end of its line, also inside a literal. What is
left is scanned for parentheses and quotes: a form is a balanced parenthesised expression or a bare
word between parentheses or blanks, and an unbalanced tail is dropped.
-/
namespace SmallScheme.Text

/-- The part of a line before its comment. -/
def beforeComment : List Char → List Char
  | [] => []
  | ';' :: ';' :: _ => []
  | c :: cs => c :: beforeComment cs

/-- Removes comments and blank lines and joins what is left by single blanks. -/
def withoutComments (text : List Char) : List Char :=
  let code := (lines text).map trim |>.filter fun line => !(beforeComment line).isEmpty
  trim (List.intercalate [' '] (code.map fun line => trim (beforeComment line)))

/-- The state of the scan: the characters since the last form in reverse, the parenthesis depth,
the quote that is open and the character before. -/
structure FormScan where
  current : List Char := []
  depth : Int := 0
  quote : Option Char := none
  previous : Option Char := none

namespace FormScan

/-- The form that ends here, if it is not blank. -/
def finish (current : List Char) : List (List Char) :=
  let form := trim current.reverse
  if form.isEmpty then [] else [form]

/-- The quote that is open after the quote character `c`. -/
def toggle (quote : Option Char) (c : Char) : Option Char :=
  match quote with
  | none => some c
  | some q => if q = c then none else some q

/-- Takes one character: the forms that end with it and the state after it. -/
def step (s : FormScan) (c : Char) : List (List Char) × FormScan :=
  let current := c :: s.current
  if isQuote c && s.previous != some '\\' then
    ([], { s with current, quote := toggle s.quote c, previous := some c })
  else if s.quote.isSome then
    ([], { s with current, previous := some c })
  else if c = '(' then
    if s.depth = 0 then
      (finish s.current, { s with current := ['('], depth := 1, previous := some c })
    else
      ([], { s with current, depth := s.depth + 1, previous := some c })
  else if c = ')' then
    if s.depth = 1 then
      (finish current, { s with current := [], depth := 0, previous := some c })
    else
      ([], { s with current, depth := s.depth - 1, previous := some c })
  else if s.depth = 0 && isBlank c then
    (finish current, { s with current := [], previous := some c })
  else
    ([], { s with current, previous := some c })

/-- The forms of the rest of a text. -/
def forms (s : FormScan) : List Char → List (List Char)
  | [] => if s.depth = 0 then finish s.current else []
  | c :: cs => (s.step c).1 ++ (s.step c).2.forms cs

end FormScan

/-- The top-level forms of a program text, in order. -/
def topLevelForms (text : String) : List String :=
  (FormScan.forms {} (withoutComments text.toList)).map String.ofList

end SmallScheme.Text
