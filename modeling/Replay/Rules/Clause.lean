import Replay.Rules.Expression
/-!
Parts that several statements have: a condition in parentheses, and declarations of variables.
-/

namespace Replay
namespace Rules

open Exec

/-- A condition in parentheses.  It has to be a boolean, which is found out behind the closing
parenthesis. -/
def parenthesized (r : Rules) (mode : Mode) : Exec Bool := do
  expect .leftParen
  let start ← peek
  let value ← r.expression mode
  expect .rightParen
  match mode with
  | .execute => ofRuntime value.condition start.location
  | .skip => return false

/-- The value behind an equals sign, if there is one. -/
def initialValue (r : Rules) (mode : Mode) : Exec (Option Value) := do
  if ← peekIs .equals then
    let _ ← next
    return some (← r.assignment mode)
  else return none

def declarationTurn (r : Rules) (mode : Mode) (_ : Unit) : Exec (Turn Unit Unit) := do
  let (name, location) ← expectIdentifier
  let value ← r.initialValue mode
  match mode with
  | .execute => declare name value location
  | .skip => pure ()
  if ← peekIs .comma then
    let _ ← next
    return .again ()
  else return .stop ()

/-- Names with or without an initial value.  A name can be used right after its own comma. -/
def declaration (r : Rules) (mode : Mode) : Exec Unit :=
  loop (r.declarationTurn mode) r.fuel ()

end Rules
end Replay
