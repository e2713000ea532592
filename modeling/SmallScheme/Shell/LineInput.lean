import SmallScheme.Shell.Cluster
import SmallScheme.Text.Blank

/-!
The lines of an input as a line reader gives them. A backspace takes away the cluster before it. The
interactive loop itself is a function of the lines.
-/
namespace SmallScheme.Shell

def backspace : Char := '\x08'

/-- The number of bytes of a text in UTF-8. -/
def byteSize (cs : List Char) : Nat := cs.foldr (fun c n => c.utf8Size + n) 0

/-- Takes a number of bytes off the end of a text that is given backwards; none if a character
would be cut. -/
def takeOff : Nat → List Char → Option (List Char)
  | 0, cs => some cs
  | _, [] => none
  | n, c :: cs => if c.utf8Size ≤ n then takeOff (n - c.utf8Size) cs else none

/-- A line that is being typed: its characters and the sizes of its clusters, both last first. There
is one byte for each size, so that sizes are kept modulo 256. -/
structure Draft where
  typed : List Char := []
  sizes : List UInt8 := []

/-- Types a cluster. A backspace takes the size of the last cluster off the end, and has no effect
if there is none. -/
def Draft.type (d : Draft) (cluster : List Char) : Option Draft :=
  if cluster = [backspace] then
    match d.sizes with
    | [] => some d
    | n :: sizes => (takeOff n.toNat d.typed).map ({ typed := ·, sizes })
  else
    some { typed := cluster.reverse ++ d.typed, sizes := (byteSize cluster).toUInt8 :: d.sizes }

/-- Carries out the backspaces of a text; none if one of them would cut a character, which only
happens to clusters of 256 bytes and more. -/
def rubOut (cs : List Char) : Option (List Char) :=
  ((clusters cs).foldlM Draft.type {}).map (·.typed.reverse)

/-- A line without the carriage return that may end it. -/
def withoutReturn (line : List Char) : List Char :=
  if line.getLast? = some '\r' then line.dropLast else line

/-- The lines of an input. Every line is ended by a newline, or by one after a carriage return; a
last line may go without. The backspaces of a line are carried out; it is none if that fails. -/
def inputLines (input : String) : List (Option String) :=
  let pieces := Text.lines input.toList
  let last := pieces.getLast?.getD []
  (pieces.dropLast.map withoutReturn ++ if last.isEmpty then [] else [last]).map fun line =>
    (rubOut line).map String.ofList

end SmallScheme.Shell
