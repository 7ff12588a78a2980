import Replay.Interpreter
/-!
Running whole scripts.
-/

namespace Replay
namespace Script

/-- How a run ended, and the sink with what was printed until then. -/
structure Report where
  result : Except Error Unit
  out : Sink

/-- A run is over when the scopes are given up and the sink is flushed.  An error of the script
takes precedence over errors on the way out, and keeps the sink from being flushed. -/
def finish (result : Except Error Unit) (m : Machine) : Report :=
  match result, Interpreter.teardown m with
  | .error e, _ => ⟨.error e, m.out⟩
  | .ok (), .error e => ⟨.error (.internal e), m.out⟩
  | .ok (), .ok m =>
    match m.out.flush with
    | .error e => ⟨.error (.output e), m.out⟩
    | .ok () => ⟨.ok (), m.out⟩

/-- Runs a script, unless `fuel` is too small to see the end of it. -/
def run (fuel : Nat) (source : String) (maxDepth : Nat) (out : Sink) : Option Report :=
  match Interpreter.run fuel (Machine.start source maxDepth out) with
  | .done () m => some (finish (.ok ()) m)
  | .fault e m => some (finish (.error e) m)
  | .outOfFuel => none

/-- What a script prints. -/
def output (fuel : Nat) (source : String) : Option (Except Error String) :=
  (run fuel source CallStack.defaultMaxDepth Sink.unlimited).map fun report =>
    match report.result with
    | .ok () => .ok report.out.text
    | .error e => .error e

/-- More than any machine has time or room for. -/
def ampleFuel : Nat := 1 <<< 62

end Script
end Replay
