import Replay.Location
import Replay.Operator
import Replay.Value
/-!
Everything that can go wrong, and the message for it.

The causes are grouped by who is at fault: the script's text, the script's execution, the sink that
takes its output, or the interpreter itself.  A well-behaved interpreter never reports the last
kind.
-/

namespace Replay

/-! ## Internal errors -/

inductive Handle where
  | scope | globalScope
deriving DecidableEq

def Handle.name : Handle → String
  | scope => "scope"
  | globalScope => "global scope"

inductive Store where
  | tokenStream | scopeArena
deriving DecidableEq

def Store.name : Store → String
  | tokenStream => "token stream"
  | scopeArena => "scope arena"

/-- Places that only a defect of the interpreter could reach. -/
inductive Site where
  | callStackPop | callStackTop | resumePosition
deriving DecidableEq

def Site.name : Site → String
  | callStackPop => "call stack pop"
  | callStackTop => "call stack top"
  | resumePosition => "resume position of a non-loop scope"

inductive InternalError where
  | invalidHandle (what : Handle)
  | indexOutOfRange (what : Store) (index length : Nat)
  | unreachable (site : Site)
deriving DecidableEq

def InternalError.message (e : InternalError) : String :=
  "Internal error: " ++
    match e with
    | invalidHandle what => s!"invalid {what.name} handle."
    | indexOutOfRange what index length =>
      s!"index {index} out of range for {what.name} of length {length}."
    | unreachable site => s!"unreachable code reached in {site.name}."

/-! ## Errors in the script's text -/

inductive LiteralKind where
  | integer | real | character | string
deriving DecidableEq

def LiteralKind.name : LiteralKind → String
  | integer => "integer"
  | real => "real"
  | character => "character"
  | string => "string"

/-- What the grammar asks for at some place. -/
inductive Expectation where
  | punct (p : Punct)
  | keyword (k : Keyword)
  | identifier
  | commaOrClosing
deriving DecidableEq

def Expectation.describe : Expectation → String
  | punct p => inQuotes p.spelling
  | keyword k => inQuotes k.spelling
  | identifier => "identifier"
  | commaOrClosing => inQuotes Punct.comma.spelling ++ " or " ++ inQuotes Punct.rightParen.spelling

inductive ParseCause where
  | illegalCharacter (found : String)
  | malformedLiteral (kind : LiteralKind) (text : String)
  | expectedToken (expected : Expectation) (found : Token)
  | unexpectedToken (found : Token)
  | unexpectedEndOfInput

def ParseCause.describe : ParseCause → String
  | illegalCharacter found => s!"Illegal character '{found}'."
  | malformedLiteral kind text => s!"Malformed {kind.name} literal '{text}'."
  | expectedToken expected found => s!"Expected {expected.describe} but found {found.describe}."
  | unexpectedToken found => s!"Unexpected token {found.describe}."
  | unexpectedEndOfInput => "Unexpected end of input."

structure ParseError where
  cause : ParseCause
  location : Location

/-! ## Errors of execution -/

inductive RuntimeCause where
  | undefinedIdentifier (name : String)
  | redefinedIdentifier (name : String)
  | uninitializedIdentifier (name : String)
  | incompatibleOperation (op : BinaryOperator) (left right : Kind)
  | incompatibleUnary (op : UnaryOperator) (operand : Kind)
  | stringNotAValue
  | divisionByZero
  | overflow
  | nonBooleanCondition (found : Kind)
  | notAProcedure (name : String)
  | tooManyParameters (expected found : Nat)
  | tooFewParameters (expected found : Nat)
  | invalidContext (keyword : Keyword)
  | procedureOutOfScope (name : String)
  | stackOverflow (depth : Nat)
deriving DecidableEq

def RuntimeCause.describe : RuntimeCause → String
  | undefinedIdentifier name => s!"Undefined identifier '{name}'."
  | redefinedIdentifier name => s!"Identifier '{name}' is already defined in this scope."
  | uninitializedIdentifier name => s!"Identifier '{name}' is used before it is initialized."
  | incompatibleOperation op left right =>
    s!"Incompatible operation: {left.name} {op.symbol} {right.name}."
  | incompatibleUnary op operand => s!"Incompatible operation: {op.symbol}{operand.name}."
  | stringNotAValue => "String literals are not runtime values."
  | divisionByZero => "Division by zero."
  | overflow => "Integer overflow while trying to compute result."
  | nonBooleanCondition found => s!"Condition must be a boolean, found {found.name}."
  | notAProcedure name => s!"'{name}' is not a procedure."
  | tooManyParameters expected found => s!"Too many parameters: expected {expected}, found {found}."
  | tooFewParameters expected found => s!"Too few parameters: expected {expected}, found {found}."
  | invalidContext keyword => s!"'{keyword.spelling}' is not valid in this context."
  | procedureOutOfScope name => s!"Procedure '{name}' outlived the scope that defined it."
  | stackOverflow depth => s!"Call stack exhausted at depth {depth}."

structure RuntimeError where
  cause : RuntimeCause
  location : Location
deriving DecidableEq

/-! ## Errors of the sink -/

inductive OutputError where
  | sinkFull | flushFailed
deriving DecidableEq

def OutputError.describe : OutputError → String
  | sinkFull => "sink is full"
  | flushFailed => "flush failed"

/-! ## All errors -/

inductive Error where
  | internal (e : InternalError)
  | parse (e : ParseError)
  | runtime (e : RuntimeError)
  | output (e : OutputError)

def located (l : Location) (text : String) : String :=
  s!"Error at {l.describe}: {text}"

def ParseError.message (e : ParseError) : String :=
  located e.location e.cause.describe

def RuntimeError.message (e : RuntimeError) : String :=
  located e.location e.cause.describe

def OutputError.message (e : OutputError) : String :=
  "Failed to write output: " ++ e.describe

namespace Error

def message : Error → String
  | internal e => e.message
  | parse e => e.message
  | runtime e => e.message
  | output e => e.message

/-- Whether the script, and not its surroundings, is at fault. -/
def isScriptError : Error → Bool
  | parse _ | runtime _ => true
  | internal _ | output _ => false

def exitCode : Error → UInt32
  | parse _ | runtime _ => 1
  | internal _ => 2
  | output _ => 3

end Error

end Replay
