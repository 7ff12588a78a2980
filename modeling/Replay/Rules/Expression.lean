import Replay.Rules.Call
/-!
Expressions.

In `skip` mode a literal still has its value and everything built with an operator, a name or a call
has none; a binary expression has the value of its first operand.
-/

namespace Replay
namespace Rules

open Exec

/-! ## Sequences and assignments -/

def commaTurn (r : Rules) (mode : Mode) (value : Value) : Exec (Turn Value Value) := do
  if ← peekIs .comma then
    let _ ← next
    return .again (← r.assignment mode)
  else return .stop value

/-- Assignments with commas between them; the value is that of the last one. -/
def expression (r : Rules) (mode : Mode) : Exec Value := do
  let first ← r.assignment mode
  loop (r.commaTurn mode) r.fuel first

/-- What an assignment stores, given the value of its right-hand side.  A missing variable is blamed
on the name, an operation that fails on the operator. -/
def assignedValue (name : String) (assignment : Assignment) (value : Value)
    (target operator : Location) :
    Exec Value := do
  match ← lookup name, assignment with
  | none, _ => raise (.undefinedIdentifier name) target
  | some _, .plain => return value
  | some ⟨_, none⟩, .compound _ => raise (.uninitializedIdentifier name) target
  | some ⟨_, some old⟩, .compound op => ofRuntime (op.apply old value) operator

def assign (name : String) (assignment : Assignment) (value : Value) (target operator : Location) :
    Exec Value := do
  let value ← assignedValue name assignment value target operator
  store name value target
  return value

/-- A name followed by an assignment operator starts an assignment; anything else is read again as a
conditional expression. -/
def assignmentRule (r : Rules) (mode : Mode) : Exec Value := do
  let target ← next
  match target.token with
  | .identifier name =>
    let operator ← next
    match Assignment.ofToken? operator.token with
    | some assignment =>
      let value ← r.assignment mode
      match mode with
      | .skip => return .noValue
      | .execute => assign name assignment value target.location operator.location
    | none =>
      rollback
      rollback
      r.conditional mode
  | _ =>
    rollback
    r.conditional mode

/-! ## Conditional and binary expressions -/

/-- The mode of the branch that is taken when the condition is `taken`. -/
def branchMode (chosen : Option Bool) (taken : Bool) : Mode :=
  if chosen = some taken then .execute else .skip

def conditionalRule (r : Rules) (mode : Mode) : Exec Value := do
  let start ← peek
  let condition ← r.binary .loosest mode
  if ← peekIs .question then
    let _ ← next
    let chosen ← match mode with
      | .execute => some <$> ofRuntime condition.condition start.location
      | .skip => pure none
    let first ← r.assignment (branchMode chosen true)
    expect .colon
    let second ← r.conditional (branchMode chosen false)
    match chosen with
    | some true => return first
    | some false => return second
    | none => return .noValue
  else return condition

/-! ## Operands -/

/-- Reads one prefix operator, if there is one. -/
def prefixTurn (ops : List (UnaryOperator × Location)) :
    Exec (Turn (List (UnaryOperator × Location)) (List (UnaryOperator × Location))) := do
  let ahead ← peek
  match UnaryOperator.ofToken? ahead.token with
  | some op =>
    let _ ← next
    return .again ((op, ahead.location) :: ops)
  | none => return .stop ops

/-- Applies prefix operators, the innermost of which comes first. -/
def applyPrefixes : List (UnaryOperator × Location) → Value → Exec Value
  | [], value => return value
  | (op, location) :: ops, value => do
    let value ← ofRuntime (op.apply value) location
    applyPrefixes ops value

def atom (r : Rules) (mode : Mode) : Exec Value := do
  let lexeme ← next
  match lexeme.token with
  | .integer n => return .integer n
  | .real x => return .real x
  | .character c => return .integer (Int64.ofNat c.toNat)
  | .keyword .kwTrue => return .boolean true
  | .keyword .kwFalse => return .boolean false
  | .string _ =>
    match mode with
    | .execute => raise .stringNotAValue lexeme.location
    | .skip => return .noValue
  | .identifier name =>
    if ← peekIs .leftParen then r.call name lexeme.location mode
    else
      match mode with
      | .execute => readVariable name lexeme.location
      | .skip => return .noValue
  | .punct .leftParen =>
    let value ← r.expression mode
    expect .rightParen
    return value
  | .endOfInput => failParse .unexpectedEndOfInput lexeme.location
  | token => failParse (.unexpectedToken token) lexeme.location

/-- An atom behind any number of prefix operators. -/
def unary (r : Rules) (mode : Mode) : Exec Value := do
  let ops ← loop prefixTurn r.fuel []
  let operand ← r.atom mode
  match mode, ops with
  | .skip, _ :: _ => return .noValue
  | _, ops => applyPrefixes ops operand

/-- The right operand of `op`: everything that binds more tightly. -/
def rightOperand (r : Rules) (op : BinaryOperator) (mode : Mode) : Exec Value :=
  match op.precedence.tighter with
  | some level => r.binary level mode
  | none => r.unary mode

/-- Reads one more operator and its right operand, if the operator binds at least as tightly as
`least`.  An operand that cannot change the result is skipped. -/
def binaryTurn (r : Rules) (least : Precedence) (mode : Mode) (left : Value) :
    Exec (Turn Value Value) := do
  let ahead ← peek
  match BinaryOperator.ofToken? ahead.token with
  | none => return .stop left
  | some op =>
    if op.precedence.rank < least.rank then return .stop left
    else
      let _ ← next
      match mode with
      | .skip =>
        let _ ← r.rightOperand op .skip
        return .again left
      | .execute =>
        if op.settledBy left then
          let _ ← r.rightOperand op .skip
          return .again left
        else
          let right ← r.rightOperand op .execute
          return .again (← ofRuntime (op.apply left right) ahead.location)

/-- Operands with operators between them that bind at least as tightly as `least`.  An operand takes
with it what binds more tightly than the operator before it, so operators of one level group from
the left. -/
def binaryRule (r : Rules) (least : Precedence) (mode : Mode) : Exec Value := do
  let left ← r.unary mode
  loop (r.binaryTurn least mode) r.fuel left

end Rules
end Replay
