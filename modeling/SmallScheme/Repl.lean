import SmallScheme.Session

/-!
The interactive loop: lines are collected until they read as complete forms, which are then
evaluated. Lines that begin with a colon are commands.
-/
namespace SmallScheme

/-- The state of the loop: the session and the lines of a form that is not complete. -/
structure Repl where
  session : Session
  pending : String := ""

namespace Repl

def greeting : String :=
  "sdscheme 0.1.0\n" ++
  "Type expressions to evaluate them, :help for commands, or Ctrl+D to exit.\n\n"

def farewell : String := "Goodbye!\n"

def helpText : String :=
  "Commands:\n" ++
  "  :help    - Show this help message\n" ++
  "  :help NAME... - Describe what each name refers to\n" ++
  "  :env     - Show the names bound in the global environment\n" ++
  "  :quit    - Exit the interpreter\n" ++
  "  :exit    - Exit the interpreter\n" ++
  "\n" ++
  "Language:\n" ++
  "  Numbers: 42, 2.5, -5, 1e3, 0xff\n" ++
  "  Booleans: #t, #f\n" ++
  "  Strings: \"hello world\", 'single quoted'\n" ++
  "  Special forms: quote, if, cond, define, set!, lambda, let, let*, begin\n" ++
  "  Lists: list, car, cdr, cons, append, reverse, length, null?, pair?\n" ++
  "  Higher-order: map, filter, fold, reduce, apply\n" ++
  "  Output: display\n" ++
  "\n" ++
  "Examples:\n" ++
  "  (+ 1 2 3)\n" ++
  "  (define (square x) (* x x))\n" ++
  "  (map square (list 1 2 3))\n" ++
  "  (let ((a 1) (b 2)) (+ a b))\n"

/-- What a line asks for when no form is pending. -/
inductive Command where
  | skip
  | help
  | describe (names : List String)
  | environment
  | quit
  | code

def Command.ofLine (line : String) : Command :=
  let trimmed := Text.trim line.toList
  let start := ":help ".toList
  if trimmed.isEmpty then skip
  else if trimmed = ":help".toList then help
  else if trimmed = ":env".toList then environment
  else if start.isPrefixOf trimmed then
    describe ((Text.words (trimmed.drop start.length)).map String.ofList)
  else if trimmed = ":quit".toList || trimmed = ":exit".toList then quit
  else code

/-- One line on each name. -/
def descriptions (ses : Session) (names : List String) : String :=
  String.join (names.map fun name =>
    (ses.describe? name).getD s!"{name}: not defined" ++ "\n")

/-- One line on each name that is bound globally. -/
def environment (ses : Session) : String :=
  s!"{ses.names.length} bindings:\n" ++
  String.join (ses.names.map fun name => "  " ++ (ses.describe? name).getD name ++ "\n")

/-- What the loop does with a line: it prints a text, or evaluates a chunk of code. -/
inductive Response where
  | printed (text : String)
  | evaluated (chunk : String) (outcome : Outcome Value)

/-- Everything that is printed of an evaluation: the values it showed, then its result. -/
def printed (o : Outcome Value) : String :=
  String.join (o.shown.map fun v => v.displayText ++ "\n") ++
  match o.result with
  | .ok v => v.text ++ "\n"
  | .error e => s!"Error: {e.message}\n"

def Response.text : Response → String
  | printed text => text
  | evaluated _ outcome => Repl.printed outcome

/-- Whether a text only needs more lines to become complete. -/
def isIncomplete (text : String) : Bool := (Program.ofText text).fault? = some .unexpectedEnd

/-- Adds a line of code and evaluates what is pending if it is complete. -/
def code (r : Repl) (line : String) : Response × Repl :=
  let chunk := if r.pending = "" then line else r.pending ++ "\n" ++ line
  if isIncomplete chunk then (.printed "", { r with pending := chunk })
  else
    let (outcome, session) := r.session.evaluate chunk
    (.evaluated chunk outcome, { session })

/-- Takes a line; none when it ends the loop. -/
def step (r : Repl) (line : String) : Option (Response × Repl) :=
  if r.pending ≠ "" then some (r.code line)
  else
    match Command.ofLine line with
    | .skip => some (.printed "", r)
    | .help => some (.printed helpText, r)
    | .describe names => some (.printed (descriptions r.session names), r)
    | .environment => some (.printed (environment r.session), r)
    | .quit => none
    | .code => some (r.code line)

/-- Takes lines until one ends the loop: the responses, and the state after the last line unless it
ended the loop. -/
def run (r : Repl) : List String → List Response × Option Repl
  | [] => ([], some r)
  | line :: lines =>
    match r.step line with
    | none => ([], none)
    | some (response, next) =>
      let (responses, last?) := next.run lines
      (response :: responses, last?)

def start (setup : Setup) : Repl := { session := .start setup }

/-- What the loop leaves behind. -/
structure Result where
  exitCode : Nat
  stdout : String

/-- The exit code of a loop that breaks off. -/
def brokenOff : Nat := 101

/-- Runs the loop on the lines of its input, in which none stands for a line that cannot be read. The
loop breaks off there. -/
def execute (setup : Setup) (lines : List (Option String)) : Result :=
  let (responses, last?) := (start setup).run ((lines.takeWhile Option.isSome).filterMap id)
  let printed := greeting ++ String.join (responses.map Response.text)
  if lines.all Option.isSome || last?.isNone then
    { exitCode := 0, stdout := printed ++ farewell }
  else { exitCode := brokenOff, stdout := printed }

end Repl

end SmallScheme
