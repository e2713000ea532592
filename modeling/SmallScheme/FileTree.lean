import SmallScheme.Text.Blank

/-!
File trees: directories and files named by slash-separated paths, with the failures of the usual
file operations.

A path is followed one component at a time, from the root if it begins with a slash and from the
home directory otherwise.
-/
namespace SmallScheme

/-- Why a file operation fails. -/
inductive FileFault where
  | notFound
  | notADirectory
  | isADirectory
  | alreadyExists
  /-- The file is not text in UTF-8. -/
  | invalidData
deriving DecidableEq

namespace Path

/-- The components of a path. -/
def components (path : String) : List String :=
  ((Text.pieces (· = '/') path.toList).filter (!·.isEmpty)).map String.ofList

/-- The components to follow. A slash at the end asks for a directory, as a dot does. -/
def route (path : String) : List String :=
  components path ++ if path.toList.getLast? = some '/' then ["."] else []

/-- Whether the last component is a dot. -/
def endsInDot (path : String) : Bool := (components path).getLast? = some "."

def isAbsolute (path : String) : Bool := path.toList.head? = some '/'

/-- The path of `name` seen from the directory `base`. -/
def join (base name : String) : String :=
  if isAbsolute name || base = "" then name
  else if base.toList.getLast? = some '/' then base ++ name
  else base ++ "/" ++ name

/-- The last component, or the path itself when it has none. -/
def fileName (path : String) : String := (components path).getLast?.getD path

end Path

inductive FileNode where
  | file (content : ByteArray)
  | directory

/-- The nodes below the root, by the names that lead to them, and the directory that relative paths
start from. An entry hides those behind it for the same names. -/
structure FileTree where
  entries : List (List String × FileNode) := []
  home : List String := []

namespace FileTree

/-- The node at a place. The root is a directory. -/
def node? (t : FileTree) (place : List String) : Option FileNode :=
  if place.isEmpty then some .directory else (t.entries.find? (·.1 = place)).map (·.2)

def put (t : FileTree) (place : List String) (n : FileNode) : FileTree :=
  { t with entries := (place, n) :: t.entries }

/-- The place that a component leads to from a place. Above the root is the root. -/
def step (place : List String) (component : String) : List String :=
  if component = "." then place
  else if component = ".." then place.dropLast
  else place ++ [component]

/-- The place that a component leads to from a directory, whether or not there is anything. -/
def descend (t : FileTree) (place : List String) (component : String) :
    Except FileFault (List String) :=
  match t.node? place with
  | none => .error .notFound
  | some (.file _) => .error .notADirectory
  | some .directory => .ok (step place component)

/-- Follows components from a place. -/
def follow (t : FileTree) (place : List String) : List String → Except FileFault (List String)
  | [] => .ok place
  | c :: cs => do
    let next ← t.descend place c
    t.follow next cs

/-- The directory that a path starts from. -/
def start (t : FileTree) (path : String) : List String :=
  if Path.isAbsolute path then [] else t.home

/-- The place that a path leads to, whether or not there is anything. -/
def locate (t : FileTree) (path : String) : Except FileFault (List String) :=
  t.follow (t.start path) (Path.route path)

/-- The node that a path leads to. -/
def find (t : FileTree) (path : String) : Except FileFault FileNode := do
  match t.node? (← t.locate path) with
  | some n => return n
  | none => throw .notFound

def isDirectory (t : FileTree) (path : String) : Bool :=
  match t.find path with
  | .ok .directory => true
  | _ => false

def isFile (t : FileTree) (path : String) : Bool :=
  match t.find path with
  | .ok (.file _) => true
  | _ => false

/-- The text of a file. -/
def readText (t : FileTree) (path : String) : Except FileFault String := do
  match ← t.find path with
  | .directory => throw .isADirectory
  | .file content =>
    match String.fromUTF8? content with
    | some text => return text
    | none => throw .invalidData

/-- The names in a directory, in order. -/
def list (t : FileTree) (path : String) : Except FileFault (List String) := do
  let place ← t.locate path
  match t.node? place with
  | none => throw .notFound
  | some (.file _) => throw .notADirectory
  | some .directory =>
    let names := t.entries.filterMap fun (p, _) =>
      if p.dropLast = place then p.getLast? else none
    return (names.mergeSort fun a b => (compare a b).isLE).eraseDups

/-- Follows components from a directory and makes the directories that are missing. The last one is
made only if `makesLast`. As long as nothing was made, a path through a file cannot be followed;
from then on every directory is made on its own, and a file in its place is there already. What was
made stays, even if a later step fails. -/
def makeFrom (t : FileTree) (makesLast made : Bool) (place : List String) :
    List String → Except FileFault Unit × FileTree
  | [] => (.ok (), t)
  | c :: cs =>
    match t.descend place c with
    | .error fault => (.error fault, t)
    | .ok next =>
      let makes := makesLast || !cs.isEmpty
      match t.node? next with
      | some .directory => t.makeFrom makesLast made next cs
      | some (.file _) =>
        (.error (if makes && (made || cs.isEmpty) then .alreadyExists else .notADirectory), t)
      | none =>
        if makes then (t.put next .directory).makeFrom makesLast true next cs
        else (.error .notFound, t)

/-- Makes a directory and those above it, as far as they are missing. A dot at the end of the path
needs the directory before it to be there, and makes only those above that. -/
def makeDirectory (t : FileTree) (path : String) : Except FileFault Unit × FileTree :=
  t.makeFrom (!Path.endsInDot path) false (t.start path)
    ((Path.components path).filter (· ≠ "."))

/-- Writes a file in a directory that exists. -/
def writeFile (t : FileTree) (path : String) (content : ByteArray) :
    Except FileFault FileTree := do
  let place ← t.locate path
  match t.node? place with
  | some .directory => throw .isADirectory
  | some (.file _) => return t.put place (.file content)
  | none =>
    match t.node? place.dropLast with
    | some .directory => return t.put place (.file content)
    | some (.file _) => throw .notADirectory
    | none => throw .notFound

/-- The content of the file at a place. -/
def content? (t : FileTree) (place : List String) : Option ByteArray :=
  match t.node? place with
  | some (.file content) => some content
  | _ => none

/-- The places of the directories that are not in an earlier tree. -/
def newDirectories (t earlier : FileTree) : List (List String) :=
  (t.entries.map (·.1)).eraseDups.filter fun place =>
    match t.node? place, earlier.node? place with
    | some .directory, none => true
    | _, _ => false

/-- The files whose content is not the same in an earlier tree, with their places. -/
def changes (t earlier : FileTree) : List (List String × ByteArray) :=
  (t.entries.map (·.1)).eraseDups.filterMap fun place =>
    match t.content? place, (earlier.content? place).map ByteArray.data with
    | some content, before? => if before? = some content.data then none else some (place, content)
    | none, _ => none

end FileTree

end SmallScheme
