import Replay.Binary64.Text
import Replay.Text.Quoted
/-!
The words and signs a script is made of.
-/

namespace Replay

inductive Keyword where
  | kwTrue | kwFalse | kwVar | kwIf | kwElif | kwElse | kwWhile | kwDo | kwFor
  | kwBreak | kwContinue | kwReturn | kwProcedure | kwEval
deriving DecidableEq

namespace Keyword

def spelling : Keyword → String
  | kwTrue => "true"
  | kwFalse => "false"
  | kwVar => "var"
  | kwIf => "if"
  | kwElif => "elif"
  | kwElse => "else"
  | kwWhile => "while"
  | kwDo => "do"
  | kwFor => "for"
  | kwBreak => "break"
  | kwContinue => "continue"
  | kwReturn => "return"
  | kwProcedure => "procedure"
  | kwEval => "eval"

def all : List Keyword :=
  [kwTrue, kwFalse, kwVar, kwIf, kwElif, kwElse, kwWhile, kwDo, kwFor,
   kwBreak, kwContinue, kwReturn, kwProcedure, kwEval]

def ofSpelling? (word : String) : Option Keyword :=
  all.find? fun k => k.spelling == word

end Keyword

/-- Operators and delimiters. -/
inductive Punct where
  | plus | minus | star | slash | percent
  | shiftLeft | shiftRight | unsignedShiftRight
  | ampersand | pipe | caret | tilde | bang | doubleAmpersand | doublePipe
  | equalEqual | bangEqual | less | lessEqual | greater | greaterEqual
  | equals | plusEquals | minusEquals | starEquals | slashEquals | percentEquals
  | shiftLeftEquals | shiftRightEquals | unsignedShiftRightEquals
  | ampersandEquals | caretEquals | pipeEquals
  | question | colon | comma | semicolon
  | leftParen | rightParen | leftBrace | rightBrace
deriving DecidableEq

namespace Punct

def spelling : Punct → String
  | plus => "+"
  | minus => "-"
  | star => "*"
  | slash => "/"
  | percent => "%"
  | shiftLeft => "<<"
  | shiftRight => ">>"
  | unsignedShiftRight => ">>>"
  | ampersand => "&"
  | pipe => "|"
  | caret => "^"
  | tilde => "~"
  | bang => "!"
  | doubleAmpersand => "&&"
  | doublePipe => "||"
  | equalEqual => "=="
  | bangEqual => "!="
  | less => "<"
  | lessEqual => "<="
  | greater => ">"
  | greaterEqual => ">="
  | equals => "="
  | plusEquals => "+="
  | minusEquals => "-="
  | starEquals => "*="
  | slashEquals => "/="
  | percentEquals => "%="
  | shiftLeftEquals => "<<="
  | shiftRightEquals => ">>="
  | unsignedShiftRightEquals => ">>>="
  | ampersandEquals => "&="
  | caretEquals => "^="
  | pipeEquals => "|="
  | question => "?"
  | colon => ":"
  | comma => ","
  | semicolon => ";"
  | leftParen => "("
  | rightParen => ")"
  | leftBrace => "\x7b"
  | rightBrace => "\x7d"

/-- Longer signs first, so that the first one that fits is the longest one that fits. -/
def all : List Punct :=
  [unsignedShiftRightEquals,
   unsignedShiftRight, shiftLeftEquals, shiftRightEquals,
   shiftLeft, shiftRight, doubleAmpersand, doublePipe, equalEqual, bangEqual, lessEqual,
   greaterEqual, plusEquals, minusEquals, starEquals, slashEquals, percentEquals, ampersandEquals,
   caretEquals, pipeEquals,
   plus, minus, star, slash, percent, ampersand, pipe, caret, tilde, bang, less, greater, equals,
   question, colon, comma, semicolon, leftParen, rightParen, leftBrace, rightBrace]

end Punct

inductive Token where
  | real (x : Float)
  | integer (n : Int64)
  | character (c : Char)
  | string (s : String)
  | identifier (name : String)
  | keyword (k : Keyword)
  | punct (p : Punct)
  | endOfInput

/-- What a script may hold between its tokens. -/
inductive Trivia where
  | blank | newline | lineComment | blockComment
deriving DecidableEq

def inQuotes (text : String) : String :=
  "'" ++ text ++ "'"

def Token.describe : Token → String
  | real x => "real literal " ++ Binary64.shortestText x
  | integer n => "integer literal " ++ toString n.toInt
  | character c => "character literal " ++ Text.quotedChar c
  | string s => "string literal " ++ Text.quotedString s
  | identifier name => "identifier " ++ inQuotes name
  | keyword k => inQuotes k.spelling
  | punct p => inQuotes p.spelling
  | endOfInput => "end of input"

def Token.isPunct (t : Token) (p : Punct) : Bool :=
  match t with
  | punct q => q = p
  | _ => false

def Token.isKeyword (t : Token) (k : Keyword) : Bool :=
  match t with
  | keyword l => l = k
  | _ => false

def Token.isEnd : Token → Bool
  | endOfInput => true
  | _ => false

def Trivia.describe : Trivia → String
  | blank => inQuotes "blank"
  | newline => inQuotes "newline"
  | lineComment | blockComment => inQuotes "comment"

end Replay
