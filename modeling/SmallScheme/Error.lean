import SmallScheme.Datum

/-!
The ways in which evaluation fails, and their wording.

Values occur in errors as the text they print as, so an error carries no identity.
-/
namespace SmallScheme

/-- A special form or an application whose shape or operator does not fit. -/
inductive TypeFault where
  /-- The head of an application has a value that cannot be applied. -/
  | headNotProcedure (head value : String)
  | notProcedure (value : String)
  | parameterNotSymbol (form parameter : String)
  | parametersNotList (parameters : String)
  | malformedBindings (form bindings : String)
  | malformedClause (clause : String)
  | nameNotSymbol (form name : String)
  | procedureNameNotSymbol (signature : String)
deriving DecidableEq

def TypeFault.message : TypeFault → String
  | headNotProcedure head value => s!"{head} is not a procedure (got {value})"
  | notProcedure value => s!"{value} is not a procedure"
  | parameterNotSymbol form parameter => s!"{form}: parameters must be symbols, got {parameter}"
  | parametersNotList parameters => s!"lambda: parameters must be a list, got {parameters}"
  | malformedBindings form bindings => s!"{form}: malformed bindings {bindings}"
  | malformedClause clause =>
    s!"cond: clause must be a list of a test and at least one expression, got {clause}"
  | nameNotSymbol form name => s!"{form}: name must be a symbol, got {name}"
  | procedureNameNotSymbol signature =>
    s!"define: procedure name must be a symbol, got {signature}"

/-- A failure inside a built-in procedure. -/
inductive RuntimeFault where
  | notNumber (procedure value : String)
  | notList (procedure value : String)
  | notProcedure (procedure value : String)
  /-- A failure in the program's own words. -/
  | raised (message : String)
deriving DecidableEq

def RuntimeFault.message : RuntimeFault → String
  | notNumber procedure value => s!"{procedure} requires numbers, got {value}"
  | notList procedure value => s!"{procedure} requires a list, got {value}"
  | notProcedure procedure value => s!"{procedure} requires a procedure, got {value}"
  | raised message => message

inductive Error where
  | syntactic (fault : SyntaxFault)
  | unbound (name : String)
  /-- A wrong number of arguments, with the form or procedure that was given them if it is known. -/
  | arity (expected got : Nat) (subject? : Option String)
  | type (fault : TypeFault)
  | runtime (fault : RuntimeFault)
  /-- A failure inside the procedure that an application's head denotes. -/
  | application (procedure : String) (cause : Error)
  /-- Evaluation is nested deeper than its limit; no program can tell where that limit lies. -/
  | tooDeep
deriving DecidableEq

namespace Error

instance : Inhabited Error := ⟨tooDeep⟩

def message : Error → String
  | syntactic fault => s!"SyntaxError: {fault.message}"
  | unbound name => s!"Unbound variable: {name}"
  | arity expected got (some subject) =>
    s!"ArityError: {subject}: expected {expected} arguments, got {got}"
  | arity expected got none => s!"ArityError: expected {expected} arguments, got {got}"
  | type fault => s!"TypeError: {fault.message}"
  | runtime fault => s!"RuntimeError: {fault.message}"
  | application procedure cause => s!"{cause.message}\n  In application of: {procedure}"
  | tooDeep => "evaluation is nested too deeply"

/-- The error without the applications that it passed through. -/
def rootCause : Error → Error
  | application _ cause => cause.rootCause
  | e => e

/-- The error that an application passed on. -/
def cause? : Error → Option Error
  | application _ cause => some cause
  | _ => none

/-- Names the procedure that failed at run time. Other errors pass unchanged. -/
def inApplication (head : String) : Error → Error
  | runtime fault => application head (runtime fault)
  | e => e

end Error

end SmallScheme
