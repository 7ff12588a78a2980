import Replay.Machine
/-!
What the rules of the language share.

The rules work on the tokens directly.  There is no syntax tree: a rule reads tokens and does what
they say, or, in `skip` mode, reads exactly the tokens it would have to read and does nothing.

The rules call one another without end in sight, so each one takes the others as an argument: a
`Rules` record holds them with a bound on how much deeper they may go, and on how often a loop may
turn.
-/

namespace Replay

inductive Mode where
  | execute | skip
deriving DecidableEq

/-- How a statement ended: normally, or by a jump that some statement around it has to deal with. -/
inductive Signal where
  | normal
  | broke (location : Location)
  | continued (location : Location)
  | returned (value : Option Value) (location : Location)

namespace Signal

def isInterrupt : Signal → Bool
  | normal => false
  | broke _ | continued _ | returned _ _ => true

/-- The complaint about a jump that nothing around it deals with. -/
def contextError : Signal → Option RuntimeError
  | normal => none
  | broke location => some ⟨.invalidContext .kwBreak, location⟩
  | continued location => some ⟨.invalidContext .kwContinue, location⟩
  | returned _ location => some ⟨.invalidContext .kwReturn, location⟩

end Signal

/-- The rules that occur inside one another, with `fuel` turns for every loop. -/
structure Rules where
  fuel : Nat
  statement : Mode → Exec Signal
  assignment : Mode → Exec Value
  conditional : Mode → Exec Value
  binary : Precedence → Mode → Exec Value
  call : String → Location → Mode → Exec Value

/-- Whether a loop goes on, and with what. -/
inductive Turn (σ β : Type) where
  | again (state : σ)
  | stop (result : β)

namespace Exec

variable {σ β : Type}

/-- Repeats `body` until it stops, `fuel` times at most. -/
@[specialize]
def loop (body : σ → Exec (Turn σ β)) : Nat → σ → Exec β
  | 0, _ => outOfFuel
  | fuel + 1, state => fun m =>
    match body state m with
    | .done (.again state) m => loop body fuel state m
    | .done (.stop result) m => .done result m
    | .fault e m => .fault e m
    | .outOfFuel => .outOfFuel

/-! ## Reading what the grammar asks for -/

def expectedToken {α : Type} (expected : Expectation) (found : Lexeme) : Exec α :=
  failParse (.expectedToken expected found.token) found.location

def peekIs (p : Punct) : Exec Bool := do
  return (← peek).token.isPunct p

def expect (p : Punct) : Exec Unit := do
  let lexeme ← next
  if lexeme.token.isPunct p then return ()
  else expectedToken (.punct p) lexeme

def expectKeyword (k : Keyword) : Exec Unit := do
  let lexeme ← next
  if lexeme.token.isKeyword k then return ()
  else expectedToken (.keyword k) lexeme

def expectIdentifier : Exec (String × Location) := do
  let lexeme ← next
  match lexeme.token with
  | .identifier name => return (name, lexeme.location)
  | _ => expectedToken .identifier lexeme

/-- Reads on to the end of a list in parentheses whose first element comes next: after each element
there is a comma, or the list is over. -/
def listTurn {α : Type} (element : Exec α) (seen : List α) : Exec (Turn (List α) (List α)) := do
  let a ← element
  let lexeme ← next
  match lexeme.token with
  | .punct .comma => return .again (seen ++ [a])
  | .punct .rightParen => return .stop (seen ++ [a])
  | _ => expectedToken .commaOrClosing lexeme

/-- A list that is closed by a parenthesis, possibly at once. -/
def closedList {α : Type} (fuel : Nat) (element : Exec α) : Exec (List α) := do
  if ← peekIs .rightParen then
    let _ ← next
    return []
  loop (listTurn element) fuel []

end Exec
end Replay
