import Replay.Binary64.Text
/-!
Values of scripts.
-/

namespace Replay

/-- A handle to a scope: a slot of the scope tree, and which of the slot's occupants is meant. -/
structure ScopeId where
  index : Nat
  generation : UInt32
deriving DecidableEq

/-- Where a procedure's parameter list starts in the token stream, and the scope it was defined
in. -/
structure Procedure where
  entry : Nat
  scope : ScopeId
deriving DecidableEq

/-- Equality compares reals as numbers: `0.0` equals `-0.0`, and a real that is not a number differs
from itself. -/
inductive Value where
  | integer (n : Int64)
  | real (x : Float)
  | boolean (b : Bool)
  | noValue
  | procedure (p : Procedure)
deriving BEq

inductive Kind where
  | integer | real | boolean | noValue | procedure
deriving DecidableEq

def Kind.name : Kind → String
  | integer => "integer"
  | real => "real"
  | boolean => "boolean"
  | noValue => "no value"
  | procedure => "procedure"

namespace Value

def kind : Value → Kind
  | integer _ => .integer
  | real _ => .real
  | boolean _ => .boolean
  | noValue => .noValue
  | procedure _ => .procedure

/-- What `eval` prints.  All of it is ASCII. -/
def text : Value → String
  | integer n => toString n.toInt
  | real x => Binary64.printedText x
  | boolean true => "true"
  | boolean false => "false"
  | noValue => "<no value>"
  | procedure p => "<procedure @" ++ toString p.entry ++ ">"

end Value

end Replay
