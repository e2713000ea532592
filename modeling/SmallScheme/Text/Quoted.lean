/-!
Quoted literals: text between two equal quote characters, in which a backslash protects the
character after it.
-/
namespace SmallScheme.Text

def isQuote (c : Char) : Bool := c = '"' || c = '\''

/-- The number of characters, after an opening quote `q`, up to and including the one that closes
it; none when the literal has no end. -/
def literalLength? (q : Char) : List Char → Option Nat
  | [] => none
  | ['\\'] => none
  | '\\' :: _ :: cs => (literalLength? q cs).map (· + 2)
  | c :: cs => if c = q then some 1 else (literalLength? q cs).map (· + 1)

/-- The text between the quotes, when a word begins and ends with the same quote character. -/
def unquoted? : List Char → Option (List Char)
  | [] => none
  | q :: cs => if isQuote q && cs.getLast? = some q then some cs.dropLast else none

end SmallScheme.Text
