import Replay.Token
/-!
The shapes that pieces of a script have.

`recognise c cs` says what the piece starting with `c` is and which characters of `cs` belong to it.
It takes the longest piece that has one of the shapes.  The first character nearly always tells
which shape is meant, so there is little to compare: digits may go on as a fraction or as a
hexadecimal number, and a slash may start a comment.
-/

namespace Replay
namespace Lexer

inductive Pattern where
  | trivia (t : Trivia)
  | decimal | hexadecimal | real
  | character | string
  | word
  | punct (p : Punct)
  | illegal
deriving DecidableEq

/-- Whether lines are counted in such a piece. -/
def Pattern.breaks : Pattern → Bool
  | .trivia .newline | .trivia .blockComment => true
  | _ => false

def isBlank (c : Char) : Bool :=
  c = ' ' || c = '\t' || c = '\r' || c = '\x0c'

def isHexDigit (c : Char) : Bool :=
  c.isDigit || ('a' ≤ c && c ≤ 'f') || ('A' ≤ c && c ≤ 'F')

def isWordStart (c : Char) : Bool :=
  c.isAlpha || c = '_'

def isWordPart (c : Char) : Bool :=
  c.isAlphanum || c = '_'

/-! ## Numbers -/

/-- A point and the digits behind it, if there are any. -/
def fraction? : List Char → Option (List Char)
  | '.' :: cs =>
    if (cs.head?.any Char.isDigit) then some ('.' :: cs.takeWhile Char.isDigit) else none
  | _ => none

/-- What follows the leading zero of a hexadecimal number. -/
def hexTail? : List Char → Option (List Char)
  | x :: cs =>
    if (x = 'x' || x = 'X') && cs.head?.any isHexDigit then some (x :: cs.takeWhile isHexDigit)
    else none
  | [] => none

/-- A number that starts with the digit `c`. -/
def number (c : Char) (cs : List Char) : Pattern × List Char :=
  match if c = '0' then hexTail? cs else none with
  | some tail => (.hexadecimal, tail)
  | none =>
    let digits := cs.takeWhile Char.isDigit
    match fraction? (cs.dropWhile Char.isDigit) with
    | some fraction => (.real, digits ++ fraction)
    | none => (.decimal, digits)

/-! ## Quoted literals -/

/-- Everything up to the closing quote, if the line has one.  A backslash takes the next character
with it, whatever that is. -/
def quotedTail? (quote : Char) : List Char → Option (List Char)
  | [] => none
  | '\x5c' :: cs =>
    match cs with
    | [] => none
    | c :: cs => if c = '\n' then none else (quotedTail? quote cs).map ('\x5c' :: c :: ·)
  | c :: cs =>
    if c = quote then some [c]
    else if c = '\n' then none
    else (quotedTail? quote cs).map (c :: ·)

/-- A literal that is never closed is illegal up to the end of its line. -/
def quoted (quote : Char) (kind : Pattern) (cs : List Char) : Pattern × List Char :=
  match quotedTail? quote cs with
  | some tail => (kind, tail)
  | none => (.illegal, cs.takeWhile (· ≠ '\n'))

/-! ## Comments -/

def lineCommentTail (cs : List Char) : List Char :=
  cs.takeWhile fun c => c ≠ '\n' && c ≠ '\r'

/-- The rest of a block comment, if it is closed.  A star takes the next character with it unless
that is a slash, so an even run of stars before a slash does not close the comment. -/
def blockCommentTail? : List Char → Option (List Char)
  | [] => none
  | '*' :: cs =>
    match cs with
    | [] => none
    | c :: cs => if c = '/' then some ['*', '/'] else (blockCommentTail? cs).map ('*' :: c :: ·)
  | c :: cs => (blockCommentTail? cs).map (c :: ·)

def comment? : List Char → Option (Pattern × List Char)
  | '/' :: cs => some (.trivia .lineComment, '/' :: lineCommentTail cs)
  | '*' :: cs => (blockCommentTail? cs).map fun tail => (.trivia .blockComment, '*' :: tail)
  | _ => none

/-! ## Signs -/

def signs : List (Punct × List Char) :=
  Punct.all.map fun p => (p, p.spelling.toList)

def sign? (text : List Char) : Option (Punct × List Char) :=
  signs.find? fun (_, spelling) => spelling.isPrefixOf text

def sign (c : Char) (cs : List Char) : Pattern × List Char :=
  match sign? (c :: cs) with
  | some (p, spelling) => (.punct p, spelling.drop 1)
  | none => (.illegal, [])

/-! ## Any piece -/

/-- The shape of the longest piece at the head of `c :: cs`, and its characters behind `c`. -/
def recognise (c : Char) (cs : List Char) : Pattern × List Char :=
  if isBlank c then (.trivia .blank, cs.takeWhile isBlank)
  else if c = '\n' then (.trivia .newline, [])
  else if c.isDigit then number c cs
  else if isWordStart c then (.word, cs.takeWhile isWordPart)
  else if c = Text.singleQuote then quoted c .character cs
  else if c = Text.doubleQuote then quoted c .string cs
  else match if c = '/' then comment? cs else none with
    | some comment => comment
    | none => sign c cs

end Lexer
end Replay
