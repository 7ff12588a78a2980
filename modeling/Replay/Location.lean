/-!
Places in a script.

A `Mark` is what the lexer carries along: how many bytes have been read, which line the next
character is on, and where that line began.  A `Location` is what a message shows.  Columns count
bytes, so a column is an offset from the line's first byte and not a number of characters.
-/

namespace Replay

/-- A line and a column, both counted from one. -/
structure Location where
  line : Nat
  column : Nat
deriving DecidableEq

def Location.describe (l : Location) : String :=
  s!"line {l.line}, column {l.column}"

/-- How many bytes a text takes. -/
def byteLength (text : List Char) : Nat :=
  text.foldl (fun n c => n + c.utf8Size) 0

structure Mark where
  offset : Nat
  line : Nat
  lineStart : Nat
deriving DecidableEq

namespace Mark

def start : Mark := ⟨0, 1, 0⟩

/-- The mark behind a text that does not go beyond its line. -/
def along (m : Mark) (text : List Char) : Mark :=
  { m with offset := m.offset + byteLength text }

/-- The mark behind a text that may have line feeds in it.  The last one of them starts the line. -/
def alongLines (m : Mark) (text : List Char) : Mark :=
  match text.reverse.dropWhile (· ≠ '\n') with
  | [] => m.along text
  | upToLast =>
    ⟨m.offset + byteLength text, m.line + text.count '\n', m.offset + byteLength upToLast⟩

/-- The mark behind `c`.  Only a line feed starts a line. -/
def after (m : Mark) (c : Char) : Mark :=
  if c = '\n' then ⟨m.offset + 1, m.line + 1, m.offset + 1⟩
  else { m with offset := m.offset + c.utf8Size }

def afterAll (m : Mark) (text : List Char) : Mark :=
  text.foldl after m

def location (m : Mark) : Location :=
  ⟨m.line, m.offset - m.lineStart + 1⟩

end Mark

end Replay
