import SmallScheme.Text.Blank
import SmallScheme.Text.Quoted

/-!
Tokens: parentheses and words.

A word is a run of plain characters and quoted literals glued together. Blanks and parentheses end
it, except inside a literal; a quote that nothing closes is a plain character.
-/
namespace SmallScheme

inductive Token where
  | lparen
  | rparen
  | word (text : String)
deriving DecidableEq

namespace Token

def text : Token → String
  | lparen => "("
  | rparen => ")"
  | word text => text

/-- The token that a text stands for when it is taken whole. -/
def ofText (text : String) : Token :=
  if text = "(" then lparen else if text = ")" then rparen else word text

/-- Puts a word, given in reverse, before the tokens that follow it. -/
def withWord (current : List Char) (rest : List Token) : List Token :=
  if current.isEmpty then rest else word (String.ofList current.reverse) :: rest

/-- Scans a text. `literal` counts the characters that still belong to an open literal, and
`current` holds the word so far in reverse. -/
def scan (literal : Nat) (current : List Char) : List Char → List Token
  | [] => withWord current []
  | c :: cs =>
    match literal with
    | k + 1 => scan k (c :: current) cs
    | 0 =>
      if c = '(' then withWord current (lparen :: scan 0 [] cs)
      else if c = ')' then withWord current (rparen :: scan 0 [] cs)
      else if Text.isBlank c then withWord current (scan 0 [] cs)
      else if Text.isQuote c then
        scan ((Text.literalLength? c cs).getD 0) (c :: current) cs
      else scan 0 (c :: current) cs

end Token

/-- The tokens of a text. -/
def tokenize (text : String) : List Token := Token.scan 0 [] text.toList

end SmallScheme
