import Replay.Rules.Block
/-!
Procedure calls.

A call moves the cursor to the procedure's parameter list, runs the body in a child of the scope
that defined the procedure, and moves the cursor back behind the arguments.
-/

namespace Replay
namespace Rules

open Exec

def arguments (r : Rules) (mode : Mode) : Exec (List Value) :=
  closedList r.fuel (r.assignment mode)

def resolveProcedure (name : String) (location : Location) : Exec Procedure := do
  match ← lookup name with
  | some ⟨_, some (.procedure p)⟩ => return p
  | some _ => raise (.notAProcedure name) location
  | none => raise (.undefinedIdentifier name) location

def declareAll : List ((String × Location) × Value) → Exec Unit
  | [] => return ()
  | ((name, location), value) :: rest => do
    declare name (some value) location
    declareAll rest

/-- Reads the parameter list and declares the parameters with the arguments of the innermost
call. -/
def bindParameters (r : Rules) (location : Location) : Exec Unit := do
  let parameters ← r.parameterList
  let call ← topCall
  let expected := parameters.length
  let found := call.arguments.length
  if expected < found then raise (.tooManyParameters expected found) location
  else if found < expected then raise (.tooFewParameters expected found) location
  else declareAll (parameters.zip call.arguments)

/-- Takes the innermost call off the stack and goes back to where it was made. -/
def leaveCall : Exec Unit := do
  let call ← popCall
  seek call.resume

/-- The value of a call whose body ended with `signal`.  Only a jump out of a loop is out of
place. -/
def callValue (signal : Signal) : Exec Value :=
  match signal with
  | .normal | .returned none _ => return .noValue
  | .returned (some value) _ => return value
  | .broke location => raise (.invalidContext .kwBreak) location
  | .continued location => raise (.invalidContext .kwContinue) location

/-- The procedure and what it is called with.  The name is looked up before the arguments are
evaluated, and whether its scope still exists is asked afterwards. -/
def prepareCall (r : Rules) (name : String) (location : Location) :
    Exec (Procedure × List Value) := do
  let procedure ← resolveProcedure name location
  let arguments ← r.arguments .execute
  let alive ← readScopes fun t => .ok (t.contains procedure.scope)
  if alive then return (procedure, arguments)
  else raise (.procedureOutOfScope name) location

/-- Everything that comes before the body.  The cursor ends up at the parameter list. -/
def enterCall (r : Rules) (name : String) (location : Location) : Exec Procedure := do
  let (procedure, arguments) ← r.prepareCall name location
  pushCall ⟨← position, arguments⟩ location
  seek procedure.entry
  return procedure

/-- Runs the body in a scope of its own.  Whatever comes of it, the scope is given up and the call
is over. -/
def callBody (r : Rules) (procedure : Procedure) (location : Location) : Exec Signal := do
  let scope ← createScope procedure.scope .procedure
  ensuring
    (inScope scope do
      r.bindParameters location
      r.bracedStatements .execute)
    (do
      destroyScope scope
      leaveCall)

/-- A call of the procedure called `name`, from the opening parenthesis on. -/
def callRule (r : Rules) (name : String) (location : Location) (mode : Mode) : Exec Value := do
  expect .leftParen
  match mode with
  | .skip =>
    let _ ← r.arguments .skip
    return .noValue
  | .execute =>
    let procedure ← r.enterCall name location
    callValue (← r.callBody procedure location)

end Rules
end Replay
