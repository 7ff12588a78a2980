import Replay.Rules.Loop
/-!
Statements.
-/

namespace Replay
namespace Rules

open Exec

/-! ## Branches -/

/-- What follows a branch.  `pending` is `execute` as long as no branch has been taken; then all
that follows is skipped. -/
def ifRest (r : Rules) (pending : Mode) : Exec (Turn Mode Signal) := do
  let lexeme ← next
  match lexeme.token with
  | .keyword .kwElif => return .again pending
  | .keyword .kwElse => return .stop (← r.block pending)
  | _ =>
    rollback
    return .stop .normal

/-- One condition with its block. -/
def ifTurn (r : Rules) (pending : Mode) : Exec (Turn Mode Signal) := do
  let taken ← r.parenthesized pending
  let signal ← r.block (if taken then .execute else .skip)
  if signal.isInterrupt then return .stop signal
  else r.ifRest (if taken then .skip else pending)

def ifChain (r : Rules) (mode : Mode) : Exec Signal :=
  loop r.ifTurn r.fuel mode

/-! ## Procedures and jumps -/

/-- The body is skipped, only where it starts is remembered. -/
def procedureDefinition (r : Rules) (mode : Mode) : Exec Signal := do
  let (name, location) ← expectIdentifier
  let entry ← position
  let _ ← r.parameterList
  let _ ← r.bracedStatements .skip
  match mode with
  | .execute =>
    declare name (some (.procedure ⟨entry, ← currentScope⟩)) location
    return .normal
  | .skip => return .normal

/-- A jump that is skipped is no jump. -/
def jump (mode : Mode) (signal : Signal) : Signal :=
  match mode with
  | .execute => signal
  | .skip => .normal

def returnStatement (r : Rules) (mode : Mode) (location : Location) : Exec Signal := do
  if ← peekIs .semicolon then
    let _ ← next
    return jump mode (.returned none location)
  else
    let value ← r.expression mode
    expect .semicolon
    return jump mode (.returned (some value) location)

/-! ## All statements -/

def evalStatement (r : Rules) (mode : Mode) : Exec Signal := do
  let value ← r.expression mode
  expect .semicolon
  match mode with
  | .execute =>
    write (value.text ++ "\n")
    return .normal
  | .skip => return .normal

def expressionStatement (r : Rules) (mode : Mode) : Exec Signal := do
  let _ ← r.expression mode
  expect .semicolon
  return .normal

def statementRule (r : Rules) (mode : Mode) : Exec Signal := do
  let lexeme ← next
  match lexeme.token with
  | .punct .leftBrace =>
    rollback
    r.block mode
  | .keyword .kwIf => r.ifChain mode
  | .keyword .kwWhile => r.whileLoop mode
  | .keyword .kwDo => r.doLoop mode
  | .keyword .kwFor => r.forLoop mode
  | .keyword .kwProcedure => r.procedureDefinition mode
  | .keyword .kwVar =>
    r.declaration mode
    expect .semicolon
    return .normal
  | .keyword .kwEval => r.evalStatement mode
  | .keyword .kwBreak =>
    expect .semicolon
    return jump mode (.broke lexeme.location)
  | .keyword .kwContinue =>
    expect .semicolon
    return jump mode (.continued lexeme.location)
  | .keyword .kwReturn => r.returnStatement mode lexeme.location
  | .punct .semicolon => return .normal
  | .endOfInput => failParse .unexpectedEndOfInput lexeme.location
  | _ =>
    rollback
    r.expressionStatement mode

/-! ## Scripts -/

/-- The next statement, unless the script is over.  A jump has nothing around it here that would
deal with it. -/
def scriptTurn (r : Rules) (_ : Unit) : Exec (Turn Unit Unit) := do
  if (← peek).token.isEnd then return .stop ()
  else
    match (← r.statement .execute).contextError with
    | some error => fail (.runtime error)
    | none => return .again ()

/-- Statements up to the end of the text. -/
def script (r : Rules) : Exec Unit :=
  loop r.scriptTurn r.fuel ()

end Rules
end Replay
