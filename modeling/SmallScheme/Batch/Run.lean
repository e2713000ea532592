import SmallScheme.FileTree
import SmallScheme.Report

/-!
Batch runs: program files of a directory are run one after the other, a report of each is printed
and its log is written.
-/
namespace SmallScheme.Batch

/-- What a batch run is asked to do. Without files it runs every program file of the directory. -/
structure Options where
  files : List String := []
  dir : String := "demos"
  resultsDir : String := "test-results"
  writesLogs : Bool := true

/-- The ending of the names of program files. -/
def ending : String := ".scheme"

def hasEnding (name : String) : Bool := ending.toList.isSuffixOf name.toList

/-- The program files directly in a directory, in order of their names. A name needs something
before the ending. -/
def discover (t : FileTree) (dir : String) : Except FileFault (List String) := do
  let names := (← t.list dir).filter fun name => hasEnding name && name != ending
  return (names.map (Path.join dir)).filter t.isFile

/-- Runs a program file; the report has the name of the file. -/
def runFile (setup : Setup) (t : FileTree) (path : String) : Except FileFault Report := do
  return .ofText setup (Path.fileName path) (← t.readText path)

/-- The path of the log of a report. -/
def logPath (resultsDir : String) (r : Report) : String := Path.join resultsDir (r.name ++ ".log")

/-- Writes the log of a report, making the directory if it is missing. -/
def writeLog (t : FileTree) (resultsDir : String) (r : Report) :
    Except FileFault Unit × FileTree :=
  match t.makeDirectory resultsDir with
  | (.error fault, t) => (.error fault, t)
  | (.ok (), t) =>
    match t.writeFile (logPath resultsDir r) r.log.toUTF8 with
    | .error fault => (.error fault, t)
    | .ok t => (.ok (), t)

/-- Why there is nothing to run. -/
inductive Refusal where
  | directoryNotFound (dir : String)
  | notAProgram (name : String)
  | fileNotFound (path : String)
  | noPrograms (dir : String)
deriving DecidableEq

def Refusal.message : Refusal → String
  | directoryNotFound dir => s!"Directory not found: {dir}\n"
  | notAProgram name => s!"Only {ending} files can be run: {name}\n"
  | fileNotFound path => s!"File not found: {path}\n"
  | noPrograms dir => s!"No {ending} files in {dir}\n"

/-- The path of a file that is named on the command line. -/
def locate (t : FileTree) (dir name : String) : Except Refusal String :=
  let path := Path.join dir name
  if !hasEnding name then .error (.notAProgram name)
  else if t.isFile path then .ok path
  else .error (.fileNotFound path)

/-- The paths of files that are named on the command line. -/
def locateAll (t : FileTree) (dir : String) : List String → Except Refusal (List String)
  | [] => .ok []
  | name :: names => do
    let path ← locate t dir name
    return path :: (← locateAll t dir names)

/-- The files to run; there has to be one. -/
def select (t : FileTree) (o : Options) : Except Refusal (List String) := do
  let paths ←
    if !o.files.isEmpty then locateAll t o.dir o.files
    else
      match discover t o.dir with
      | .ok paths => pure paths
      | .error _ => throw (.directoryNotFound o.dir)
  if paths.isEmpty then throw (.noPrograms o.dir) else return paths

/-- The number of characters of a form that a report shows. -/
def previewLength : Nat := 50

def preview (input : String) : String :=
  if previewLength < input.length then
    String.ofList (input.toList.take previewLength) ++ "..."
  else input

/-- What is printed of a report. -/
def summary (r : Report) : String :=
  let rule := Report.rule
  s!"\n{rule}\nFile: {r.name}\n{rule}\n{r.counts}\nStatus: {Report.status r.passed}\n" ++
  if r.passed then ""
  else
    "\nFailed expressions:\n" ++ String.join (r.failures.map fun (position, input, e) =>
      s!"  {position}. {preview input}\n     Error: {e.message}\n")

/-- The technical description of a failure that ends a run. -/
def describeFault : FileFault → String
  | .notFound =>
    "Os \x7b code: 2, kind: NotFound, message: \"No such file or directory\" \x7d"
  | .alreadyExists => "Os \x7b code: 17, kind: AlreadyExists, message: \"File exists\" \x7d"
  | .notADirectory => "Os \x7b code: 20, kind: NotADirectory, message: \"Not a directory\" \x7d"
  | .isADirectory => "Os \x7b code: 21, kind: IsADirectory, message: \"Is a directory\" \x7d"
  | .invalidData =>
    "Error \x7b kind: InvalidData, message: \"stream did not contain valid UTF-8\" \x7d"

/-- What ends a run before all of its files are run. -/
inductive Stop where
  | refused (refusal : Refusal)
  | faulted (fault : FileFault)

def Stop.message : Stop → String
  | refused refusal => refusal.message
  | faulted fault => s!"Error: {describeFault fault}\n"

/-- What a run leaves behind: its exit code, what it printed, what ended it early, and the files. -/
structure Result where
  exitCode : Nat
  stdout : String := ""
  stop? : Option Stop := none
  tree : FileTree

/-- What a run says of its end if it ends early. Warnings are not in it: by default the program also
warns of every form that fails, and writes that to the same place. -/
def Result.stderr (r : Result) : String := (r.stop?.map Stop.message).getD ""

/-- The state of a run between files: the tree and the reports so far, oldest first. -/
structure Progress where
  tree : FileTree
  reports : List Report := []

/-- Runs one file. A file that cannot be read, or a log that cannot be written, is a fault. -/
def runOne (setup : Setup) (o : Options) (p : Progress) (path : String) :
    Progress × Option FileFault :=
  match runFile setup p.tree path with
  | .error fault => (p, some fault)
  | .ok report =>
    let reports := p.reports ++ [report]
    if o.writesLogs then
      match writeLog p.tree o.resultsDir report with
      | (.error fault, tree) => ({ tree, reports }, some fault)
      | (.ok (), tree) => ({ tree, reports }, none)
    else ({ p with reports }, none)

/-- Runs files in order, up to the first fault. -/
def runAll (setup : Setup) (o : Options) (p : Progress) :
    List String → Progress × Option FileFault
  | [] => (p, none)
  | path :: paths =>
    match runOne setup o p path with
    | (p, some fault) => (p, some fault)
    | (p, none) => runAll setup o p paths

/-- What is printed at the end. -/
def totals (o : Options) (reports : List Report) : String :=
  let rule := Report.rule
  let passed := reports.countP (·.passed)
  let failed := reports.countP (!·.passed)
  let logs := if o.writesLogs then s!"\nDetailed logs: {o.resultsDir}\n" else ""
  s!"\n{rule}\nSummary\n{rule}\nTotal files: {reports.length}\n" ++
  s!"Passed: {passed}\nFailed: {failed}\n{logs}{rule}\n\n"

/-- Runs what the options ask for. -/
def run (setup : Setup) (t : FileTree) (o : Options) : Result :=
  match select t o with
  | .error refusal => { exitCode := 1, stop? := some (.refused refusal), tree := t }
  | .ok paths =>
    let (p, fault?) := runAll setup o { tree := t } paths
    let printed := s!"\nRunning {paths.length} file(s)...\n" ++
      String.join (p.reports.map summary)
    match fault? with
    | some fault =>
      { exitCode := 1, stdout := printed, stop? := some (.faulted fault), tree := p.tree }
    | none =>
      { exitCode := if p.reports.all (·.passed) then 0 else 1,
        stdout := printed ++ totals o p.reports, tree := p.tree }

end SmallScheme.Batch
