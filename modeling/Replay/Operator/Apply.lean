import Replay.Error
/-!
What operators compute.

One coercion table serves all binary operators: two integers stay integers, an integer beside a real
becomes a real, two booleans stay booleans, and nothing else goes together.  Integer arithmetic is
exact or it is an error.  Shifts take the low six bits of their right operand as the count.
-/

namespace Replay

/-- The integer as a value, if 64 bits can hold it. -/
def checked (n : Int) : Except RuntimeCause Value :=
  if Int64.minValue.toInt ≤ n ∧ n ≤ Int64.maxValue.toInt then .ok (.integer (Int64.ofInt n))
  else .error .overflow

def shiftCount (n : Int64) : Int64 := n &&& 63

def unsignedShiftRight (a b : Int64) : Int64 :=
  (a.toUInt64 >>> (shiftCount b).toUInt64).toInt64

namespace BinaryOperator

/-- The value of an operator on two integers, `none` where it has no meaning for them.  The quotient
and the remainder go with a division that truncates toward zero; a remainder whose quotient does not
fit counts as an overflow. -/
def onIntegers (op : BinaryOperator) (a b : Int64) : Option (Except RuntimeCause Value) :=
  match op with
  | add => some (checked (a.toInt + b.toInt))
  | sub => some (checked (a.toInt - b.toInt))
  | mul => some (checked (a.toInt * b.toInt))
  | div => some (if b = 0 then .error .divisionByZero else checked (a.toInt.tdiv b.toInt))
  | mod => some (
      if b = 0 then .error .divisionByZero
      else do
        let _ ← checked (a.toInt.tdiv b.toInt)
        checked (a.toInt.tmod b.toInt))
  | shiftLeft => some (.ok (.integer (a <<< shiftCount b)))
  | shiftRight => some (.ok (.integer (a >>> shiftCount b)))
  | unsignedShiftRight => some (.ok (.integer (Replay.unsignedShiftRight a b)))
  | bitAnd => some (.ok (.integer (a &&& b)))
  | bitOr => some (.ok (.integer (a ||| b)))
  | bitXor => some (.ok (.integer (a ^^^ b)))
  | equal => some (.ok (.boolean (a == b)))
  | notEqual => some (.ok (.boolean (a != b)))
  | less => some (.ok (.boolean (a < b)))
  | lessEqual => some (.ok (.boolean (a ≤ b)))
  | greater => some (.ok (.boolean (b < a)))
  | greaterEqual => some (.ok (.boolean (b ≤ a)))
  | and | or => none

def onReals (op : BinaryOperator) (x y : Float) : Option Value :=
  match op with
  | add => some (.real (x + y))
  | sub => some (.real (x - y))
  | mul => some (.real (x * y))
  | div => some (.real (x / y))
  | mod => some (.real (Binary64.remainder x y))
  | equal => some (.boolean (x == y))
  | notEqual => some (.boolean (x != y))
  | less => some (.boolean (x < y))
  | lessEqual => some (.boolean (x ≤ y))
  | greater => some (.boolean (y < x))
  | greaterEqual => some (.boolean (y ≤ x))
  | shiftLeft | shiftRight | unsignedShiftRight | bitAnd | bitOr | bitXor | and | or => none

def onBooleans (op : BinaryOperator) (a b : Bool) : Option Value :=
  match op with
  | and => some (.boolean (a && b))
  | or => some (.boolean (a || b))
  | equal => some (.boolean (a == b))
  | notEqual => some (.boolean (a != b))
  | _ => none

def incompatible (op : BinaryOperator) (left right : Value) : Except RuntimeCause Value :=
  .error (.incompatibleOperation op left.kind right.kind)

def apply (op : BinaryOperator) (left right : Value) : Except RuntimeCause Value :=
  let orIncompatible : Option Value → Except RuntimeCause Value
    | some v => .ok v
    | none => op.incompatible left right
  match left, right with
  | .integer a, .integer b => (op.onIntegers a b).getD (op.incompatible left right)
  | .real x, .real y => orIncompatible (op.onReals x y)
  | .integer a, .real y => orIncompatible (op.onReals (Binary64.ofInt a.toInt) y)
  | .real x, .integer b => orIncompatible (op.onReals x (Binary64.ofInt b.toInt))
  | .boolean a, .boolean b => orIncompatible (op.onBooleans a b)
  | _, _ => op.incompatible left right

/-- Whether the left operand alone decides the result. -/
def settledBy : BinaryOperator → Value → Bool
  | and, .boolean false => true
  | or, .boolean true => true
  | _, _ => false

end BinaryOperator

def UnaryOperator.apply (op : UnaryOperator) (operand : Value) : Except RuntimeCause Value :=
  match op, operand with
  | negate, .integer n => checked (-n.toInt)
  | negate, .real x => .ok (.real (-x))
  | not, .boolean b => .ok (.boolean (!b))
  | complement, .integer n => .ok (.integer (~~~n))
  | _, _ => .error (.incompatibleUnary op operand.kind)

def Value.condition : Value → Except RuntimeCause Bool
  | boolean b => .ok b
  | v => .error (.nonBooleanCondition v.kind)

end Replay
