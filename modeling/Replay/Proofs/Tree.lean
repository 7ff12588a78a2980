import Replay.Operator
import Replay.Value
import Replay.Location
/-!
Syntax trees, and the tokens that stand for them.

A tree has a mark of some type `κ` at every token that an error may be blamed on, and where a
condition and the parameters of a procedure start.  A tree that was only thought of has no marks,
that is marks of type `Unit`.  Its tokens depend on where parentheses are put; once they are laid
out, its marks are the places of the tokens.
-/

namespace Replay

/-- Where a token stands in the stream, and in the text. -/
structure Place where
  index : Nat
  location : Location

/-! ## Expressions -/

inductive Literal where
  | integer (n : Int64)
  | real (x : Float)
  | character (c : Char)
  | boolean (b : Bool)
  | string (s : String)

namespace Literal

def token : Literal → Token
  | integer n => .integer n
  | real x => .real x
  | character c => .character c
  | boolean true => .keyword .kwTrue
  | boolean false => .keyword .kwFalse
  | string s => .string s

def value? : Literal → Option Value
  | integer n => some (.integer n)
  | real x => some (.real x)
  | character c => some (.integer (Int64.ofNat c.toNat))
  | boolean b => some (.boolean b)
  | string _ => none

end Literal

/-- The sign for an assignment.  Not every operator can be combined with one. -/
def Assignment.sign? : Assignment → Option Punct
  | plain => some .equals
  | compound .add => some .plusEquals
  | compound .sub => some .minusEquals
  | compound .mul => some .starEquals
  | compound .div => some .slashEquals
  | compound .mod => some .percentEquals
  | compound .shiftLeft => some .shiftLeftEquals
  | compound .shiftRight => some .shiftRightEquals
  | compound .unsignedShiftRight => some .unsignedShiftRightEquals
  | compound .bitAnd => some .ampersandEquals
  | compound .bitXor => some .caretEquals
  | compound .bitOr => some .pipeEquals
  | compound _ => none

structure AssignmentSign where
  meaning : Assignment
  punct : Punct
  shown : meaning.sign? = some punct

theorem AssignmentSign.reads (sign : AssignmentSign) :
    Assignment.ofPunct? sign.punct = some sign.meaning := by
  obtain ⟨meaning, punct, shown⟩ := sign
  cases meaning with
  | plain => cases shown; rfl
  | compound op => cases op <;> cases shown <;> rfl

def BinaryOperator.level : BinaryOperator → Nat
  | or => 3
  | and => 4
  | bitOr => 5
  | bitXor => 6
  | bitAnd => 7
  | equal | notEqual => 8
  | less | lessEqual | greater | greaterEqual => 9
  | shiftLeft | shiftRight | unsignedShiftRight => 10
  | add | sub => 11
  | mul | div | mod => 12

theorem BinaryOperator.level_eq (op : BinaryOperator) : op.level = 3 + op.precedence.rank := by
  cases op <;> rfl

inductive Expr (κ : Type) where
  | literal (place : κ) (literal : Literal)
  | read (place : κ) (name : String)
  | unary (place : κ) (op : UnaryOperator) (operand : Expr κ)
  | binary (op : BinaryOperator) (place : κ) (left right : Expr κ)
  | conditional (start : κ) (condition whenTrue whenFalse : Expr κ)
  | assign (target : κ) (name : String) (place : κ) (sign : AssignmentSign) (value : Expr κ)
  | comma (first second : Expr κ)
  | call (place : κ) (name : String) (arguments : List (Expr κ))

def Expr.level {κ : Type} : Expr κ → Nat
  | comma .. => 0
  | assign .. => 1
  | conditional .. => 2
  | binary op .. => op.level
  | unary .. => 13
  | literal .. | read .. | call .. => 14

def Expr.callFree {κ : Type} : Expr κ → Bool
  | .literal .. | .read .. => true
  | .unary _ _ e => e.callFree
  | .binary _ _ a b => a.callFree && b.callFree
  | .conditional _ c a b => c.callFree && a.callFree && b.callFree
  | .assign _ _ _ _ e => e.callFree
  | .comma a b => a.callFree && b.callFree
  | .call .. => false

/-! ## Statements -/

structure Condition (κ : Type) where
  start : κ
  test : Expr κ

structure Declarator (κ : Type) where
  place : κ
  name : String
  value : Option (Expr κ)

structure Parameter (κ : Type) where
  place : κ
  name : String

inductive Initializer (κ : Type) where
  | nothing
  | declare (first : Declarator κ) (rest : List (Declarator κ))
  | expression (e : Expr κ)

mutual

/-- The mark `entry` of a procedure is where its parameters start. -/
inductive Stmt (κ : Type) where
  | empty
  | expression (e : Expr κ)
  | eval (e : Expr κ)
  | declare (first : Declarator κ) (rest : List (Declarator κ))
  | block (body : List (Stmt κ))
  | branch (condition : Condition κ) (body : List (Stmt κ)) (rest : Branches κ)
  | whileLoop (condition : Condition κ) (body : List (Stmt κ))
  | doLoop (body : List (Stmt κ)) (condition : Condition κ)
  | forLoop (init : Initializer κ) (condition : Option (Condition κ)) (increment : Option (Expr κ))
      (body : List (Stmt κ))
  | procedure (place : κ) (name : String) (entry : κ) (parameters : List (Parameter κ))
    (body : List (Stmt κ))
  | breakLoop (place : κ)
  | continueLoop (place : κ)
  | returnValue (place : κ) (value : Option (Expr κ))

/-- What follows the first branch of an `if`. -/
inductive Branches (κ : Type) where
  | done
  | elif (condition : Condition κ) (body : List (Stmt κ)) (rest : Branches κ)
  | otherwise (body : List (Stmt κ))

end

/-! ## Parentheses -/

/-- Where an expression stands in what is around it. -/
inductive Position where
  | operand
  | left (op : BinaryOperator)
  | right (op : BinaryOperator)
  | condition
  | whenTrue
  | whenFalse
  | assigned
  | first
  | second
  | argument
  | initializer
  | whole

/-- The lowest level of an expression that can stand there without parentheses. -/
def Position.least : Position → Nat
  | operand => 13
  | left op => op.level
  | right op => op.level + 1
  | condition => 3
  | whenFalse => 2
  | whenTrue | assigned | argument | initializer => 1
  | first | second | whole => 0

theorem Position.least_le (position : Position) : position.least ≤ 13 := by
  cases position with
  | left op => cases op <;> decide
  | right op => cases op <;> decide
  | _ => decide

/-- Whether an expression of at least the given level would go on with the token. -/
def Token.continues (level : Nat) : Token → Bool
  | .punct .leftParen => true
  | .punct .question => level ≤ 2
  | .punct .comma => level = 0
  | .punct p =>
    match BinaryOperator.ofPunct? p with
    | some op => level ≤ op.level
    | none => (Assignment.ofPunct? p).isSome
  | _ => false

/-- Which expressions are put in parentheses, depending on where they stand. -/
def Parens : Type := Position → Expr Unit → Bool

namespace Parens

/-- There are parentheses at least where the levels ask for them. -/
def Suffices (p : Parens) : Prop := ∀ {position e}, e.level < position.least → p position e = true

def needed : Parens := fun position e => decide (e.level < position.least)

def everywhere : Parens := fun position e =>
  match position with
  | .whole | .argument | .initializer => decide (e.level < position.least)
  | _ => decide (e.level < 14)

theorem needed_suffices : needed.Suffices := fun h => decide_eq_true h

theorem everywhere_suffices : everywhere.Suffices := by
  intro position e h
  have hlevel : e.level < 14 := Nat.lt_of_lt_of_le h (Nat.le_succ_of_le position.least_le)
  cases position <;> first | exact decide_eq_true h | exact decide_eq_true hlevel

end Parens

/-! ## Tokens -/

def wrapped (inParens : Bool) (tokens : List Token) : List Token :=
  if inParens then .punct .leftParen :: (tokens ++ [.punct .rightParen]) else tokens

section Tokens

variable (p : Parens)

mutual

def Expr.tokens : Expr Unit → List Token
  | .literal _ l => [l.token]
  | .read _ name => [.identifier name]
  | .unary _ op e => .punct op.punct :: wrapped (p .operand e) e.tokens
  | .binary op _ a b =>
    wrapped (p (.left op) a) a.tokens ++ .punct op.punct :: wrapped (p (.right op) b) b.tokens
  | .conditional _ c a b =>
    wrapped (p .condition c) c.tokens ++ .punct .question ::
      (wrapped (p .whenTrue a) a.tokens ++ .punct .colon :: wrapped (p .whenFalse b) b.tokens)
  | .assign _ name _ sign e =>
    .identifier name :: .punct sign.punct :: wrapped (p .assigned e) e.tokens
  | .comma a b => wrapped (p .first a) a.tokens ++ .punct .comma :: wrapped (p .second b) b.tokens
  | .call _ name arguments => .identifier name :: .punct .leftParen :: Expr.listTokens arguments

def Expr.listTokens : List (Expr Unit) → List Token
  | [] => [.punct .rightParen]
  | e :: es => wrapped (p .argument e) e.tokens ++ Expr.moreTokens es

def Expr.moreTokens : List (Expr Unit) → List Token
  | [] => [.punct .rightParen]
  | e :: es => .punct .comma :: (wrapped (p .argument e) e.tokens ++ Expr.moreTokens es)

end

def Expr.tokensAt (position : Position) (e : Expr Unit) :
    List Token := wrapped (p position e) (e.tokens p)

def Declarator.tokens (d : Declarator Unit) : List Token :=
  .identifier d.name ::
    match d.value with
    | some e => .punct .equals :: e.tokensAt p .initializer
    | none => []

def Declarator.listTokens (first : Declarator Unit) (rest : List (Declarator Unit)) : List Token :=
  first.tokens p ++ rest.flatMap fun d => .punct .comma :: d.tokens p

def Parameter.listTokens : List (Parameter Unit) → List Token
  | [] => [.punct .rightParen]
  | first :: rest =>
    .identifier first.name :: (rest.flatMap fun x => [.punct .comma, .identifier x.name]) ++
    [.punct .rightParen]

def Condition.tokens (c : Condition Unit) : List Token :=
  .punct .leftParen :: (c.test.tokensAt p .whole ++ [.punct .rightParen])

def Initializer.tokens : Initializer Unit → List Token
  | nothing => []
  | declare first rest => .keyword .kwVar :: Declarator.listTokens p first rest
  | expression e => e.tokensAt p .whole

def forTokens (init : Initializer Unit) (condition : Option (Condition Unit))
    (increment : Option (Expr Unit)) :
    List Token :=
  init.tokens p ++ .punct .semicolon ::
    ((condition.map fun c => c.test.tokensAt p .whole).getD [] ++ .punct .semicolon ::
      ((increment.map fun e => e.tokensAt p .whole).getD [] ++ [.punct .rightParen]))

mutual

def Stmt.tokens : Stmt Unit → List Token
  | .empty => [.punct .semicolon]
  | .expression e => e.tokensAt p .whole ++ [.punct .semicolon]
  | .eval e => .keyword .kwEval :: (e.tokensAt p .whole ++ [.punct .semicolon])
  | .declare first rest =>
    .keyword .kwVar :: (Declarator.listTokens p first rest ++ [.punct .semicolon])
  | .block body => .punct .leftBrace :: Stmt.listTokens body
  | .branch c body rest =>
    .keyword .kwIf :: (c.tokens p ++ .punct .leftBrace :: (Stmt.listTokens body ++ rest.tokens))
  | .whileLoop c body =>
    .keyword .kwWhile :: (c.tokens p ++ .punct .leftBrace :: Stmt.listTokens body)
  | .doLoop body c =>
    .keyword .kwDo :: .punct .leftBrace ::
      (Stmt.listTokens body ++ .keyword .kwWhile :: (c.tokens p ++ [.punct .semicolon]))
  | .forLoop init condition increment body =>
    .keyword .kwFor :: .punct .leftParen ::
      (forTokens p init condition increment ++ .punct .leftBrace :: Stmt.listTokens body)
  | .procedure _ name _ parameters body =>
    .keyword .kwProcedure :: .identifier name :: .punct .leftParen ::
      (Parameter.listTokens parameters ++ .punct .leftBrace :: Stmt.listTokens body)
  | .breakLoop _ => [.keyword .kwBreak, .punct .semicolon]
  | .continueLoop _ => [.keyword .kwContinue, .punct .semicolon]
  | .returnValue _ none => [.keyword .kwReturn, .punct .semicolon]
  | .returnValue _ (some e) => .keyword .kwReturn :: (e.tokensAt p .whole ++ [.punct .semicolon])

def Stmt.listTokens : List (Stmt Unit) → List Token
  | [] => [.punct .rightBrace]
  | s :: rest => s.tokens ++ Stmt.listTokens rest

def Branches.tokens : Branches Unit → List Token
  | .done => []
  | .elif c body rest =>
    .keyword .kwElif :: (c.tokens p ++ .punct .leftBrace :: (Stmt.listTokens body ++ rest.tokens))
  | .otherwise body => .keyword .kwElse :: .punct .leftBrace :: Stmt.listTokens body

end

def scriptTokens (script : List (Stmt Unit)) : List Token := script.flatMap (Stmt.tokens p)

end Tokens

/-! ## Marks -/

/-- Where an expression starts whose text starts at `i`. -/
def inside (inParens : Bool) (i : Nat) : Nat := if inParens then i + 1 else i

section Marks

variable {κ : Type} (p : Parens) (marks : Nat → κ)

mutual

/-- The tree with the marks of the tokens that it has if they start at the given position. -/
def Expr.marked : Expr Unit → Nat → Expr κ
  | .literal _ l, i => .literal (marks i) l
  | .read _ name, i => .read (marks i) name
  | .unary _ op e, i => .unary (marks i) op (e.marked (inside (p .operand e) (i + 1)))
  | .binary op _ a b, i =>
    .binary op (marks (i + (a.tokensAt p (.left op)).length)) (a.marked (inside (p (.left op) a) i))
      (b.marked (inside (p (.right op) b) (i + (a.tokensAt p (.left op)).length + 1)))
  | .conditional _ c a b, i =>
    .conditional (marks i) (c.marked (inside (p .condition c) i))
      (a.marked (inside (p .whenTrue a) (i + (c.tokensAt p .condition).length + 1)))
      (b.marked (inside (p .whenFalse b)
        (i + (c.tokensAt p .condition).length + 1 + (a.tokensAt p .whenTrue).length + 1)))
  | .assign _ name _ sign e, i =>
    .assign (marks i) name (marks (i + 1)) sign (e.marked (inside (p .assigned e) (i + 2)))
  | .comma a b, i =>
    .comma (a.marked (inside (p .first a) i))
      (b.marked (inside (p .second b) (i + (a.tokensAt p .first).length + 1)))
  | .call _ name arguments, i => .call (marks i) name (Expr.markedList arguments (i + 2))

def Expr.markedList : List (Expr Unit) → Nat → List (Expr κ)
  | [], _ => []
  | e :: es, i =>
    e.marked (inside (p .argument e) i) ::
    Expr.markedList es (i + (e.tokensAt p .argument).length + 1)

end

def Expr.markedAt (position : Position) (e : Expr Unit) (i : Nat) : Expr κ :=
  e.marked p marks (inside (p position e) i)

def Declarator.marked (d : Declarator Unit) (i : Nat) : Declarator κ :=
  ⟨marks i, d.name, d.value.map fun e => e.markedAt p marks .initializer (i + 2)⟩

def Declarator.markedList : List (Declarator Unit) → Nat → List (Declarator κ)
  | [], _ => []
  | d :: ds, i => d.marked p marks i :: markedList ds (i + (d.tokens p).length + 1)

def Parameter.markedList : List (Parameter Unit) → Nat → List (Parameter κ)
  | [], _ => []
  | x :: xs, i => ⟨marks i, x.name⟩ :: markedList xs (i + 2)

def Condition.marked (c : Condition Unit) (i : Nat) : Condition κ :=
  ⟨marks i, c.test.markedAt p marks .whole i⟩

def Initializer.marked : Initializer Unit → Nat → Initializer κ
  | nothing, _ => .nothing
  | declare first rest, i =>
    .declare (first.marked p marks (i + 1))
      (Declarator.markedList p marks rest (i + 1 + (first.tokens p).length + 1))
  | expression e, i => .expression (e.markedAt p marks .whole i)

/-- Where the condition of a `for` loop starts, if its initializer starts at `i`. -/
def forConditionAt (init : Initializer Unit) (i : Nat) : Nat := i + (init.tokens p).length + 1

def forIncrementAt (init : Initializer Unit) (condition : Option (Condition Unit)) (i : Nat) :
    Nat :=
  forConditionAt p init i + ((condition.map fun c => c.test.tokensAt p .whole).getD []).length + 1

mutual

def Stmt.marked : Stmt Unit → Nat → Stmt κ
  | .empty, _ => .empty
  | .expression e, i => .expression (e.markedAt p marks .whole i)
  | .eval e, i => .eval (e.markedAt p marks .whole (i + 1))
  | .declare first rest, i =>
    .declare (first.marked p marks (i + 1))
      (Declarator.markedList p marks rest (i + 1 + (first.tokens p).length + 1))
  | .block body, i => .block (Stmt.markedList body (i + 1))
  | .branch c body rest, i =>
    .branch (c.marked p marks (i + 2)) (Stmt.markedList body (i + 1 + (c.tokens p).length + 1))
      (rest.marked (i + 1 + (c.tokens p).length + 1 + (Stmt.listTokens p body).length))
  | .whileLoop c body, i =>
    .whileLoop (c.marked p marks (i + 2)) (Stmt.markedList body (i + 1 + (c.tokens p).length + 1))
  | .doLoop body c, i =>
    .doLoop (Stmt.markedList body (i + 2))
      (c.marked p marks (i + 2 + (Stmt.listTokens p body).length + 2))
  | .forLoop init condition increment body, i =>
    .forLoop (init.marked p marks (i + 2))
      (condition.map fun c => c.marked p marks (forConditionAt p init (i + 2)))
      (increment.map fun e => e.markedAt p marks .whole (forIncrementAt p init condition (i + 2)))
      (Stmt.markedList body (i + 2 + (forTokens p init condition increment).length + 1))
  | .procedure _ name _ parameters body, i =>
    .procedure (marks (i + 1)) name (marks (i + 2)) (Parameter.markedList marks parameters (i + 3))
      (Stmt.markedList body (i + 3 + (Parameter.listTokens parameters).length + 1))
  | .breakLoop _, i => .breakLoop (marks i)
  | .continueLoop _, i => .continueLoop (marks i)
  | .returnValue _ value, i =>
    .returnValue (marks i) (value.map fun e => e.markedAt p marks .whole (i + 1))

def Stmt.markedList : List (Stmt Unit) → Nat → List (Stmt κ)
  | [], _ => []
  | s :: rest, i => s.marked i :: Stmt.markedList rest (i + (s.tokens p).length)

def Branches.marked : Branches Unit → Nat → Branches κ
  | .done, _ => .done
  | .elif c body rest, i =>
    .elif (c.marked p marks (i + 2)) (Stmt.markedList body (i + 1 + (c.tokens p).length + 1))
      (rest.marked (i + 1 + (c.tokens p).length + 1 + (Stmt.listTokens p body).length))
  | .otherwise body, i => .otherwise (Stmt.markedList body (i + 2))

end

end Marks

end Replay
