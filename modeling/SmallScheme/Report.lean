import SmallScheme.Session
import SmallScheme.Text.Forms

/-!
Reports on program texts that are evaluated form by form, so that a form that fails does not hide
the results of those after it, and the logs that are written of them.
-/
namespace SmallScheme

/-- What became of a form. A success has the value, unless it was evaluated for effect, and the
values it showed as texts. -/
inductive FormResult where
  | success (value? : Option Value) (shown : List String)
  | failure (error : Error)

structure FormReport where
  input : String
  result : FormResult

structure Report where
  name : String
  forms : List FormReport

namespace FormResult

def ofOutcome (o : Outcome Value) : FormResult :=
  match o.result with
  | .ok .unspecified => success none (o.shown.map Value.reportText)
  | .ok v => success (some v) (o.shown.map Value.reportText)
  | .error e => failure e

def isFailure : FormResult → Bool
  | success .. => false
  | failure _ => true

end FormResult

namespace Report

/-- Evaluates forms one by one in a session. -/
def evalForms (ses : Session) : List String → List FormReport
  | [] => []
  | input :: inputs =>
    let (outcome, ses) := ses.evaluate input
    { input, result := .ofOutcome outcome } :: evalForms ses inputs

/-- Evaluates every top-level form of a text in a new session. -/
def ofText (setup : Setup) (name text : String) : Report :=
  { name, forms := evalForms (.start setup) (Text.topLevelForms text) }

def total (r : Report) : Nat := r.forms.length

def failed (r : Report) : Nat := r.forms.countP (·.result.isFailure)

def successful (r : Report) : Nat := r.forms.countP (!·.result.isFailure)

def passed (r : Report) : Bool := r.failed = 0

/-- The forms with their positions, counted from one. -/
def positioned (r : Report) : List (Nat × FormReport) :=
  r.forms.zipIdx.map fun (form, i) => (i + 1, form)

/-- The errors, with the position and the text of the form that raised them. -/
def failures (r : Report) : List (Nat × String × Error) :=
  r.positioned.filterMap fun (position, form) =>
    match form.result with
    | .failure e => some (position, form.input, e)
    | .success .. => none

def rule : String := "============================================================"

def status (passed : Bool) : String := if passed then "PASSED" else "FAILED"

/-- The lines that count forms. -/
def counts (r : Report) : String :=
  s!"Total expressions: {r.total}\nSuccessful: {r.successful}\nFailed: {r.failed}\n"

/-- The lines of a log on the result of one form. -/
def resultLog : FormResult → String
  | .success value? shown =>
    let value := match value? with
      | some v => s!"=> {v.reportText}\n"
      | none => ""
    value ++ String.join (shown.map fun line => s!"[display] {line}\n")
  | .failure e => s!"Error: {e.message}\n"

/-- The log of a report. -/
def log (r : Report) : String :=
  s!"{rule}\nResults: {r.name}\n{rule}\n{r.counts}Status: {status r.passed}\n{rule}\n\n" ++
  String.join (r.positioned.map fun (position, form) =>
    s!"[{position}/{r.total}] {form.input}\n" ++ resultLog form.result ++ "\n")

end Report

end SmallScheme
