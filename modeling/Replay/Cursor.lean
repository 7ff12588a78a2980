import Replay.Lexer
/-!
A cursor over the tokens of a script.

Tokens are read when they are first asked for and kept from then on, so that going back to an
earlier position reads the same tokens again without looking at the text.  A piece that is not a
token is reported once, to whoever asked first; asking again goes on behind it.
-/

namespace Replay

/-- A token with its place in the text and its place in the stream. -/
structure Lexeme where
  token : Token
  location : Location
  index : Nat

/-- The position never goes beyond the tokens read so far, so the token at the position is either
known or the next one to be read. -/
structure Cursor where
  lexer : Lexer
  cache : Array Lexeme
  position : Nat

namespace Cursor

def ofSource (source : String) : Cursor :=
  ⟨Lexer.ofSource source, #[], 0⟩

def warnings (c : Cursor) : List Warning := c.lexer.warnings

def faultError (item : Lexer.Item) (fault : Lexer.Fault) : ParseError :=
  let text := String.ofList item.text
  let cause : ParseCause :=
    match fault with
    | .illegal => .illegalCharacter text
    | .malformed kind => .malformedLiteral kind text
  ⟨cause, item.start.location⟩

/-- Reads one more token.  At the end of the text it is always `endOfInput`. -/
def readOne (c : Cursor) : Except ParseError Lexeme × Cursor :=
  let ⟨lexer, cache, position⟩ := c
  let push (lexer : Lexer) (token : Token) (location : Location) :
      Except ParseError Lexeme × Cursor :=
    let lexeme : Lexeme := ⟨token, location, cache.size⟩
    (.ok lexeme, ⟨lexer, cache.push lexeme, position⟩)
  match lexer.next with
  | (some item, lexer) =>
    match item.result with
    | .ok token => push lexer token item.start.location
    | .error fault => (.error (faultError item fault), ⟨lexer, cache, position⟩)
  | (none, lexer) => push lexer .endOfInput lexer.mark.location

/-- The token at the position, which stays where it is. -/
def peek (c : Cursor) : Except ParseError Lexeme × Cursor :=
  match c.cache[c.position]? with
  | some lexeme => (.ok lexeme, c)
  | none => c.readOne

/-- The token at the position, which moves behind it. -/
def next (c : Cursor) : Except ParseError Lexeme × Cursor :=
  match c.peek with
  | (.ok lexeme, c) => (.ok lexeme, { c with position := c.position + 1 })
  | (.error e, c) => (.error e, c)

def outOfRange (c : Cursor) (index : Nat) : InternalError :=
  .indexOutOfRange .tokenStream index c.cache.size

def rollback (c : Cursor) : Except InternalError Cursor :=
  if c.position = 0 then .error (c.outOfRange 0)
  else .ok { c with position := c.position - 1 }

def seek (c : Cursor) (position : Nat) : Except InternalError Cursor :=
  if position ≤ c.cache.size then .ok { c with position }
  else .error (c.outOfRange position)

/-- The token right before the position. -/
def current (c : Cursor) : Except InternalError Lexeme :=
  match if c.position = 0 then none else c.cache[c.position - 1]? with
  | some lexeme => .ok lexeme
  | none => .error (c.outOfRange c.position)

end Cursor
end Replay
