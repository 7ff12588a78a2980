import Replay.Interpreter
/-!
What the host of an interpreter can do, and the states that are met on the way.

A host makes requests one after the other, and goes on making them after errors: a `Session` is what
it has got so far.  A request goes through many states of which the host sees the last one only.  To
speak of the others the rules are watched: a rule that starts in a state on the watch list raises an
alarm, and other than that nothing changes.  A state is met if no watch that looks out for it stays
silent.
-/

namespace Replay

/-! ## Requests -/

inductive Request where
  | step (mode : Mode)
  | expression (mode : Mode)
  | run
  | teardown

def Request.perform (r : Rules) : Request → Exec Unit
  | step mode => do
    let _ ← r.statement mode
  | expression mode => do
    let _ ← r.expression mode
  | run => r.script
  | teardown => fun m =>
    match Interpreter.teardown m with
    | .ok m => .done () m
    | .error e => .fault (.internal e) m

/-- The errors that were reported so far, the latest one first, and the state after the last
request. -/
inductive Session (source : String) (maxDepth : Nat) (out : Sink) :
    List Error → Machine → Prop where
  | start : Session source maxDepth out [] (Machine.start source maxDepth out)
  | done {errors : List Error} {m m' : Machine} (request : Request) (fuel : Nat) :
      Session source maxDepth out errors m → request.perform (Rules.within fuel) m = .done () m' →
      Session source maxDepth out errors m'
  | fault {errors : List Error} {m m' : Machine} {e : Error} (request : Request) (fuel : Nat) :
      Session source maxDepth out errors m → request.perform (Rules.within fuel) m = .fault e m' →
      Session source maxDepth out (e :: errors) m'

/-! ## Watching -/

namespace Exec

/-- What is reported when a watch is successful.  It is one of the errors that no rule reports by
itself. -/
def alarm : Error := .internal (.unreachable .resumePosition)

def watched {α : Type} (watch : Machine → Bool) (x : Exec α) : Exec α := fun m =>
  if watch m then .fault alarm m else x m

theorem watched_run {α : Type} {watch : Machine → Bool} {m : Machine} (h : watch m = false)
    (x : Exec α) :
    x.watched watch m = x m := by
  rw [watched, h, if_neg Bool.false_ne_true]

theorem watched_alarm {α : Type} {watch : Machine → Bool} {m : Machine} (h : watch m = true)
    (x : Exec α) :
    x.watched watch m = .fault alarm m := by
  rw [watched, if_pos h]

end Exec

def Rules.watched (watch : Machine → Bool) : Nat → Rules
  | 0 => Rules.within 0
  | fuel + 1 =>
    { fuel := fuel + 1
      statement := fun mode => ((watched watch fuel).statementRule mode).watched watch
      assignment := fun mode => ((watched watch fuel).assignmentRule mode).watched watch
      conditional := fun mode => ((watched watch fuel).conditionalRule mode).watched watch
      binary := fun least mode => ((watched watch fuel).binaryRule least mode).watched watch
      call := fun name location mode =>
        ((watched watch fuel).callRule name location mode).watched watch }

theorem Rules.watched_nothing (fuel : Nat) :
    Rules.watched (fun _ => false) fuel = Rules.within fuel := by
  induction fuel with
  | zero => rfl
  | succ fuel ih =>
    rw [Rules.watched, Rules.within, ih]
    rfl

/-- Some request of some session starts a rule in the state `m`. -/
def Met (source : String) (maxDepth : Nat) (out : Sink) (m : Machine) : Prop :=
  ∃ errors before request fuel, Session source maxDepth out errors before ∧
    ∀ watch : Machine → Bool, watch m = true →
      ∃ after, Request.perform (Rules.watched watch fuel) request before = .fault Exec.alarm after

end Replay
