import Replay.Rules.Basic
/-!
Statements between braces, and parameter lists: what procedures and blocks have in common.
-/

namespace Replay
namespace Rules

open Exec

/-- Stops at the closing brace or at a statement that jumps. -/
def statementTurn (r : Rules) (mode : Mode) (_ : Unit) : Exec (Turn Unit Signal) := do
  let ahead ← peek
  match ahead.token with
  | .punct .rightBrace =>
    let _ ← next
    return .stop .normal
  | .endOfInput => expectedToken (.punct .rightBrace) ahead
  | _ =>
    let signal ← r.statement mode
    if signal.isInterrupt then return .stop signal else return .again ()

def bracedStatements (r : Rules) (mode : Mode) : Exec Signal := do
  expect .leftBrace
  loop (r.statementTurn mode) r.fuel ()

/-- Statements in a scope of their own. -/
def block (r : Rules) (mode : Mode) : Exec Signal := do
  match mode with
  | .skip => r.bracedStatements .skip
  | .execute =>
    withChild (← currentScope) .block fun scope => inScope scope (r.bracedStatements .execute)

def parameterList (r : Rules) : Exec (List (String × Location)) := do
  expect .leftParen
  closedList r.fuel expectIdentifier

end Rules
end Replay
