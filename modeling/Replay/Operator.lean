import Replay.Token
/-!
Operators and how tightly they bind.
-/

namespace Replay

/-- Binding strength of the binary operators, loosest first.  Assignment, the conditional and the
comma bind more loosely than all of these. -/
inductive Precedence where
  | logicalOr | logicalAnd | bitOr | bitXor | bitAnd
  | equality | relational | shift | additive | multiplicative
deriving DecidableEq

namespace Precedence

def loosest : Precedence := logicalOr

def rank : Precedence → Nat
  | logicalOr => 0
  | logicalAnd => 1
  | bitOr => 2
  | bitXor => 3
  | bitAnd => 4
  | equality => 5
  | relational => 6
  | shift => 7
  | additive => 8
  | multiplicative => 9

/-- The next level up.  Above `multiplicative` there are only the unary operators. -/
def tighter : Precedence → Option Precedence
  | logicalOr => some logicalAnd
  | logicalAnd => some bitOr
  | bitOr => some bitXor
  | bitXor => some bitAnd
  | bitAnd => some equality
  | equality => some relational
  | relational => some shift
  | shift => some additive
  | additive => some multiplicative
  | multiplicative => none

end Precedence

inductive BinaryOperator where
  | add | sub | mul | div | mod
  | shiftLeft | shiftRight | unsignedShiftRight
  | bitAnd | bitOr | bitXor
  | and | or
  | equal | notEqual | less | lessEqual | greater | greaterEqual
deriving DecidableEq

namespace BinaryOperator

def punct : BinaryOperator → Punct
  | add => .plus
  | sub => .minus
  | mul => .star
  | div => .slash
  | mod => .percent
  | shiftLeft => .shiftLeft
  | shiftRight => .shiftRight
  | unsignedShiftRight => .unsignedShiftRight
  | bitAnd => .ampersand
  | bitOr => .pipe
  | bitXor => .caret
  | and => .doubleAmpersand
  | or => .doublePipe
  | equal => .equalEqual
  | notEqual => .bangEqual
  | less => .less
  | lessEqual => .lessEqual
  | greater => .greater
  | greaterEqual => .greaterEqual

def ofPunct? : Punct → Option BinaryOperator
  | .plus => some add
  | .minus => some sub
  | .star => some mul
  | .slash => some div
  | .percent => some mod
  | .shiftLeft => some shiftLeft
  | .shiftRight => some shiftRight
  | .unsignedShiftRight => some unsignedShiftRight
  | .ampersand => some bitAnd
  | .pipe => some bitOr
  | .caret => some bitXor
  | .doubleAmpersand => some and
  | .doublePipe => some or
  | .equalEqual => some equal
  | .bangEqual => some notEqual
  | .less => some less
  | .lessEqual => some lessEqual
  | .greater => some greater
  | .greaterEqual => some greaterEqual
  | _ => none

def ofToken? : Token → Option BinaryOperator
  | .punct p => ofPunct? p
  | _ => none

def symbol (op : BinaryOperator) : String := op.punct.spelling

def precedence : BinaryOperator → Precedence
  | or => .logicalOr
  | and => .logicalAnd
  | bitOr => .bitOr
  | bitXor => .bitXor
  | bitAnd => .bitAnd
  | equal | notEqual => .equality
  | less | lessEqual | greater | greaterEqual => .relational
  | shiftLeft | shiftRight | unsignedShiftRight => .shift
  | add | sub => .additive
  | mul | div | mod => .multiplicative

theorem ofPunct?_punct (op : BinaryOperator) : ofPunct? op.punct = some op := by
  cases op <;> rfl

end BinaryOperator

inductive UnaryOperator where
  | negate | not | complement
deriving DecidableEq

namespace UnaryOperator

def punct : UnaryOperator → Punct
  | negate => .minus
  | not => .bang
  | complement => .tilde

def ofPunct? : Punct → Option UnaryOperator
  | .minus => some negate
  | .bang => some not
  | .tilde => some complement
  | _ => none

def ofToken? : Token → Option UnaryOperator
  | .punct p => ofPunct? p
  | _ => none

def symbol (op : UnaryOperator) : String := op.punct.spelling

theorem ofPunct?_punct (op : UnaryOperator) : ofPunct? op.punct = some op := by
  cases op <;> rfl

end UnaryOperator

/-- A plain assignment stores the right-hand side, a compound one combines it with the old value. -/
inductive Assignment where
  | plain
  | compound (op : BinaryOperator)
deriving DecidableEq

namespace Assignment

def ofPunct? : Punct → Option Assignment
  | .equals => some plain
  | .plusEquals => some (compound .add)
  | .minusEquals => some (compound .sub)
  | .starEquals => some (compound .mul)
  | .slashEquals => some (compound .div)
  | .percentEquals => some (compound .mod)
  | .shiftLeftEquals => some (compound .shiftLeft)
  | .shiftRightEquals => some (compound .shiftRight)
  | .unsignedShiftRightEquals => some (compound .unsignedShiftRight)
  | .ampersandEquals => some (compound .bitAnd)
  | .caretEquals => some (compound .bitXor)
  | .pipeEquals => some (compound .bitOr)
  | _ => none

def ofToken? : Token → Option Assignment
  | .punct p => ofPunct? p
  | _ => none

def symbol : Assignment → String
  | plain => Punct.equals.spelling
  | compound op => op.symbol ++ Punct.equals.spelling

end Assignment

end Replay
