import Replay.Error
/-!
Procedure calls that have not returned, at most `maxDepth` of them.
-/

namespace Replay

/-- Where the caller goes on, and what it passed. -/
structure Call where
  resume : Nat
  arguments : List Value

structure CallStack where
  calls : Array Call
  maxDepth : Nat

namespace CallStack

def defaultMaxDepth : Nat := 1024

def new (maxDepth : Nat) : CallStack := ⟨#[], maxDepth⟩

def depth (s : CallStack) : Nat := s.calls.size

def push (s : CallStack) (call : Call) : Except RuntimeCause CallStack :=
  if s.depth < s.maxDepth then .ok { s with calls := s.calls.push call }
  else .error (.stackOverflow s.maxDepth)

def pop (s : CallStack) : Except InternalError (Call × CallStack) :=
  match s.calls.back? with
  | some call => .ok (call, { s with calls := s.calls.pop })
  | none => .error (.unreachable .callStackPop)

def top (s : CallStack) : Except InternalError Call :=
  match s.calls.back? with
  | some call => .ok call
  | none => .error (.unreachable .callStackTop)

end CallStack
end Replay
