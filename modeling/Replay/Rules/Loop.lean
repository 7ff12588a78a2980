import Replay.Rules.Clause
/-!
Loops.

A loop is a series of passes, each of which starts with the cursor at the same position and runs in
a scope of its own.  The pass in which the condition fails skips the body, so that the cursor ends
up behind the loop; after a `break` the whole loop is skipped once for the same purpose.
-/

namespace Replay

/-- How a pass ended. -/
inductive Pass where
  | again
  | exit
  | leave (signal : Signal)

namespace Rules

open Exec

/-! ## Passes -/

/-- What follows a pass.  `skipRest` skips the loop from its entry on. -/
def settle (entry : Nat) (skipRest : Exec Unit) (pass : Pass) : Exec (Turn Unit Signal) := do
  match pass with
  | .again => return .again ()
  | .exit => return .stop .normal
  | .leave (.broke _) =>
    seek entry
    skipRest
    return .stop .normal
  | .leave signal => return .stop signal

def passTurn (entry : Nat) (skipRest : Exec Unit) (pass : Exec Pass) (_ : Unit) :
    Exec (Turn Unit Signal) := do
  seek entry
  settle entry skipRest (← pass)

def passes (r : Rules) (entry : Nat) (skipRest : Exec Unit) (pass : Exec Pass) : Exec Signal :=
  loop (passTurn entry skipRest pass) r.fuel ()

/-- The position that a loop's scope remembers. -/
def resumePosition (scope : ScopeId) : Exec Nat :=
  readScopes fun t => do
    match (← t.get scope).kind.resume? with
    | some position => return position
    | none => throw (.unreachable .resumePosition)

/-! ## While loops -/

def skipWhile (r : Rules) : Exec Unit := do
  let _ ← r.parenthesized .skip
  let _ ← r.bracedStatements .skip

def whilePass (r : Rules) : Exec Pass := do
  if ← r.parenthesized .execute then
    match ← r.bracedStatements .execute with
    | .normal | .continued _ => return .again
    | signal => return .leave signal
  else
    let _ ← r.bracedStatements .skip
    return .exit

def whileLoop (r : Rules) (mode : Mode) : Exec Signal := do
  let entry ← position
  match mode with
  | .skip =>
    r.skipWhile
    return .normal
  | .execute =>
    r.passes entry r.skipWhile do
      withChild (← currentScope) (.loop entry) fun scope => inScope scope r.whilePass

/-! ## Do loops -/

def doCondition (r : Rules) (mode : Mode) : Exec Bool := do
  expectKeyword .kwWhile
  let holds ← r.parenthesized mode
  expect .semicolon
  return holds

def skipDo (r : Rules) : Exec Unit := do
  let _ ← r.bracedStatements .skip
  let _ ← r.doCondition .skip

/-- The body may have been left in the middle: goes back to its start and skips it. -/
def resumePastBody (r : Rules) (scope : ScopeId) : Exec Unit := do
  seek (← resumePosition scope)
  let _ ← r.bracedStatements .skip

def doPassEnd (r : Rules) : Exec Pass := do
  if ← r.doCondition .execute then return .again else return .exit

/-- The condition is evaluated in the scope of the body. -/
def doPass (r : Rules) (scope : ScopeId) : Exec Pass := do
  match ← r.bracedStatements .execute with
  | .normal => r.doPassEnd
  | .continued _ =>
    r.resumePastBody scope
    r.doPassEnd
  | signal => return .leave signal

def doLoop (r : Rules) (mode : Mode) : Exec Signal := do
  let entry ← position
  match mode with
  | .skip =>
    r.skipDo
    return .normal
  | .execute =>
    r.passes entry r.skipDo do
      withChild (← currentScope) (.doWhile entry) fun scope => inScope scope (r.doPass scope)

/-! ## For loops -/

def forInitializer (r : Rules) (mode : Mode) : Exec Unit := do
  let ahead ← peek
  match ahead.token with
  | .keyword .kwVar =>
    let _ ← next
    r.declaration mode
  | .punct .semicolon => pure ()
  | _ =>
    let _ ← r.expression mode
  expect .semicolon

/-- A missing condition holds. -/
def forCondition (r : Rules) (mode : Mode) : Exec Bool := do
  let start ← peek
  let holds ← do
    if start.token.isPunct .semicolon then pure true
    else
      let value ← r.expression mode
      match mode with
      | .execute => ofRuntime value.condition start.location
      | .skip => pure true
  expect .semicolon
  return holds

def forIncrement (r : Rules) (mode : Mode) : Exec Unit := do
  if !(← peekIs .rightParen) then
    let _ ← r.expression mode
  expect .rightParen

def skipForRest (r : Rules) : Exec Unit := do
  let _ ← r.forCondition .skip
  r.forIncrement .skip
  let _ ← r.bracedStatements .skip

/-- The increment stands before the body and is evaluated after it. -/
def forAdvance (r : Rules) (scope : ScopeId) : Exec Pass := do
  seek (← resumePosition scope)
  r.forIncrement .execute
  return .again

def forBody (r : Rules) (scope : ScopeId) (holds : Bool) : Exec Pass := do
  r.forIncrement .skip
  if holds then
    match ← r.bracedStatements .execute with
    | .normal | .continued _ => r.forAdvance scope
    | signal => return .leave signal
  else
    let _ ← r.bracedStatements .skip
    return .exit

/-- The position of the increment is kept in the scope. -/
def forPass (r : Rules) (scope : ScopeId) : Exec Pass := do
  let holds ← r.forCondition .execute
  let increment ← position
  changeScopes fun t => t.setKind scope (.loop increment)
  r.forBody scope holds

/-- A pass works on copies of the loop's variables.  Their values are taken over if there is another
pass. -/
def forCopyPass (r : Rules) (init scope : ScopeId) : Exec Pass := do
  changeScopes fun t => t.copyBindings init scope
  let pass ← inScope scope (r.forPass scope)
  match pass with
  | .again =>
    changeScopes fun t => t.writeBack scope init
    return .again
  | pass => return pass

def forPasses (r : Rules) (init : ScopeId) : Exec Signal := do
  let entry ← position
  r.passes entry r.skipForRest (withChild init (.loop entry) (r.forCopyPass init))

def forLoop (r : Rules) (mode : Mode) : Exec Signal := do
  expect .leftParen
  match mode with
  | .skip =>
    r.forInitializer .skip
    r.skipForRest
    return .normal
  | .execute =>
    withChild (← currentScope) .forInit fun init => inScope init do
      r.forInitializer .execute
      r.forPasses init

end Rules
end Replay
