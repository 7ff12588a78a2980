import Replay.Rules.Statement
/-!
The interpreter: the rules put together.

Everything here takes a bound, `fuel`, on how deep the rules may go and how often a loop may turn.
A larger bound never changes an answer that a smaller one has given.
-/

namespace Replay

/-- The rules with `fuel` levels of recursion left. -/
def Rules.within : Nat → Rules
  | 0 =>
    { fuel := 0
      statement := fun _ => Exec.outOfFuel
      assignment := fun _ => Exec.outOfFuel
      conditional := fun _ => Exec.outOfFuel
      binary := fun _ _ => Exec.outOfFuel
      call := fun _ _ _ => Exec.outOfFuel }
  | fuel + 1 =>
    { fuel := fuel + 1
      statement := fun mode => (Rules.within fuel).statementRule mode
      assignment := fun mode => (Rules.within fuel).assignmentRule mode
      conditional := fun mode => (Rules.within fuel).conditionalRule mode
      binary := fun least mode => (Rules.within fuel).binaryRule least mode
      call := fun name location mode => (Rules.within fuel).callRule name location mode }

namespace Interpreter

/-- Executes or skips one statement. -/
def step (fuel : Nat) (mode : Mode) : Exec Signal :=
  (Rules.within fuel).statement mode

/-- Evaluates or skips one expression. -/
def expression (fuel : Nat) (mode : Mode) : Exec Value :=
  (Rules.within fuel).expression mode

/-- Executes statements up to the end of the script. -/
def run (fuel : Nat) : Exec Unit :=
  (Rules.within fuel).script

/-- Gives up all scopes but the global one, which is left empty. -/
def teardown (m : Machine) : Except InternalError Machine := do
  return { m with scopes := ← m.scopes.teardown, current := ScopeTree.root }

/-- The value of a variable that is visible from the current scope. -/
def valueOf? (m : Machine) (name : String) : Option Value :=
  match m.scopes.lookup m.current name with
  | .ok (some binding) => binding.value
  | _ => none

end Interpreter
end Replay
