import SmallScheme.Repl
import SmallScheme.Shell.Arguments
import SmallScheme.Shell.LineInput
import SmallScheme.Shell.Random

/-!
The command line: `repl` starts the interactive loop, and anything else is a batch run on the files
of the system.
-/
namespace SmallScheme.Main

def depth : Nat := 100000

/-- The path of a place in the system. -/
def pathOf (place : List String) : String := "/" ++ "/".intercalate place

/-- What is at a place in the system. -/
def probe (place : List String) : IO (Option FileNode) := do
  try
    let real ← IO.FS.realPath (pathOf place)
    if ← real.isDir then return some .directory
    else if ← real.pathExists then return some (.file (← IO.FS.readBinFile real))
    else return none
  catch _ => return none

/-- Loads what components lead to from a place, with everything on the way. -/
def loadAlong (t : FileTree) (place : List String) : List String → IO FileTree
  | [] => return t
  | c :: cs => do
    let next := FileTree.step place c
    match t.node? next, ← probe next with
    | none, some n => loadAlong (t.put next n) next cs
    | _, _ => loadAlong t next cs

def load (t : FileTree) (path : String) : IO FileTree :=
  loadAlong t (t.start path) (Path.components path)

/-- Loads what a batch run may look at. -/
def loadFor (o : Batch.Options) : IO FileTree := do
  let home := Path.components (← IO.currentDir).toString
  let t : FileTree := { entries := [(home, .directory)], home }
  let t ← load t o.dir
  let names ←
    if !o.files.isEmpty then pure o.files
    else if t.isDirectory o.dir then
      pure ((← (← IO.FS.realPath o.dir).readDir).toList.map (·.fileName))
    else pure []
  let t ← names.foldlM (fun t name => load t (Path.join o.dir name)) t
  load t o.resultsDir

/-- Writes new directories and changed files to the system. -/
def save (t earlier : FileTree) : IO Unit := do
  for place in t.newDirectories earlier do
    IO.FS.createDirAll (pathOf place)
  for (place, content) in t.changes earlier do
    IO.FS.writeBinFile (pathOf place) content

def runBatch (setup : Setup) (args : List String) : IO UInt32 := do
  let t ← match Shell.request? args with
    | some (.run o) => loadFor o
    | _ => pure {}
  let r := Shell.execute setup t args
  IO.print r.stdout
  IO.eprint r.stderr
  save r.tree t
  return r.exitCode.toUInt32

partial def runRepl (r : Repl) : IO UInt32 := do
  match Shell.inputLines (← (← IO.getStdin).getLine) with
  | none :: _ => return Repl.brokenOff.toUInt32
  | [] => finish
  | some line :: _ =>
    match r.step line with
    | none => finish
    | some (response, next) =>
      IO.print response.text
      (← IO.getStdout).flush
      runRepl next
where
  finish : IO UInt32 := do
    IO.print Repl.farewell
    return 0

def run (args : List String) : IO UInt32 := do
  let setup : Setup := { depth, numbers := Shell.uniform (← IO.monoNanosNow) }
  if args = ["repl"] then
    IO.print Repl.greeting
    runRepl (.start setup)
  else runBatch setup args

end SmallScheme.Main

def main (args : List String) : IO UInt32 := SmallScheme.Main.run args
