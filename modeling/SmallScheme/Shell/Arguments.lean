import SmallScheme.Batch.Run

/-!
The command line of batch runs. A batch run itself is a function of its options.

Options may stand before and after files; each may be given once, with its value in the next
argument or after an equals sign. Two dashes end the options.
-/
namespace SmallScheme.Shell

/-- What a command line asks for. -/
inductive Request where
  | run (o : Batch.Options)
  | version
  | help

/-- The options given so far. -/
structure Given where
  files : List String := []
  dir? : Option String := none
  resultsDir? : Option String := none
  noLog : Bool := false

def Given.options (g : Given) : Batch.Options :=
  let default : Batch.Options := {}
  { files := g.files, dir := g.dir?.getD default.dir,
    resultsDir := g.resultsDir?.getD default.resultsDir, writesLogs := !g.noLog }

/-- Whether an argument is an option; a single dash is not. -/
def isOption (arg : String) : Bool :=
  match arg.toList with
  | '-' :: _ :: _ => true
  | _ => false

/-- An option that takes a value may be given once, and its value is not empty. -/
def once (current? : Option String) (value : String) : Option (Option String) :=
  if current?.isSome || value = "" then none else some (some value)

/-- The value that an argument attaches to an option with an equals sign. -/
def attached? (option arg : String) : Option String :=
  let start := (option ++ "=").toList
  if start.isPrefixOf arg.toList then some (String.ofList (arg.toList.drop start.length)) else none

/-- Reads arguments from the left; none for a command line that has no meaning. -/
def readArgs (g : Given) : List String → Option Request
  | [] => some (.run g.options)
  | "--" :: args => some (.run { g.options with files := g.files ++ args })
  | "--no-log" :: args => if g.noLog then none else readArgs { g with noLog := true } args
  | "--version" :: _ => some .version
  | "--help" :: _ => some .help
  | "--dir" :: value :: args => do
    if isOption value then none
    else readArgs { g with dir? := ← once g.dir? value } args
  | "--results-dir" :: value :: args => do
    if isOption value then none
    else readArgs { g with resultsDir? := ← once g.resultsDir? value } args
  | arg :: args => do
    if let some value := attached? "--dir" arg then
      readArgs { g with dir? := ← once g.dir? value } args
    else if let some value := attached? "--results-dir" arg then
      readArgs { g with resultsDir? := ← once g.resultsDir? value } args
    else
      match arg.toList with
      | '-' :: 'V' :: _ => some .version
      | '-' :: 'h' :: _ => some .help
      | '-' :: _ :: _ => none
      | _ => readArgs { g with files := g.files ++ [arg] } args

def request? (args : List String) : Option Request := readArgs {} args

def versionText : String := "scheme-runner 0.1.0\n"

def helpText : String :=
  "Run .scheme files form by form and write a result log per file\n\n" ++
  "Usage: scheme-runner [OPTIONS] [FILES]...\n\n" ++
  "Arguments:\n" ++
  "  [FILES]...  Files to run, relative to --dir; every .scheme file in --dir when omitted\n\n" ++
  "Options:\n" ++
  "      --dir <DIR>                  Directory holding the .scheme files [default: demos]\n" ++
  "      --results-dir <RESULTS_DIR>  Directory the per-file logs are written to " ++
  "[default: test-results]\n" ++
  "      --no-log                     Do not write log files\n" ++
  "  -h, --help                       Print help\n" ++
  "  -V, --version                    Print version\n"

/-- What a command line leaves behind: its exit code, what it printed, and the files. -/
structure Result where
  exitCode : Nat
  stdout : String := ""
  stderr : String := ""
  tree : FileTree

/-- Runs a command line on a file tree. A command line without meaning has exit code 2. -/
def execute (setup : Setup) (t : FileTree) (args : List String) : Result :=
  match request? args with
  | none => { exitCode := 2, stderr := "error: invalid arguments\n", tree := t }
  | some .version => { exitCode := 0, stdout := versionText, tree := t }
  | some .help => { exitCode := 0, stdout := helpText, tree := t }
  | some (.run o) =>
    let r := Batch.run setup t o
    { exitCode := r.exitCode, stdout := r.stdout, stderr := r.stderr, tree := r.tree }

end SmallScheme.Shell
