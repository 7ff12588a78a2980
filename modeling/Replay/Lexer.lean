import Replay.Lexer.Literal
import Replay.Lexer.Pattern
/-!
From the text of a script to its tokens.

A script is read piece by piece.  Trivia are passed over, every other piece is an `Item`: a token or
a fault.  A fault does not stop the lexer, the next item starts right behind it.
-/

namespace Replay
namespace Lexer

inductive Fault where
  | illegal
  | malformed (kind : LiteralKind)
deriving DecidableEq

/-- A piece that is not trivia, with its text and where it starts. -/
structure Item where
  start : Mark
  text : List Char
  result : Except Fault Token

/-- What a piece amounts to, and the warnings about it. -/
inductive Reading where
  | skipped
  | item (result : Except Fault Token) (warnings : List Warning)

def readWord (text : List Char) : Token :=
  let word := String.ofList text
  match Keyword.ofSpelling? word with
  | some k => .keyword k
  | none => .identifier word

def readNumber {α : Type} (kind : LiteralKind) (token : α → Token) (value : Option α) : Reading :=
  match value with
  | some a => .item (.ok (token a)) []
  | none => .item (.error (.malformed kind)) []

/-- A character literal has to hold one character.  It keeps its warnings also if it holds more. -/
def readCharacter (m : Mark) (text : List Char) : Reading :=
  match unescape? m (body text) with
  | some ([c], warnings) => .item (.ok (.character c)) warnings
  | some (_, warnings) => .item (.error (.malformed .character)) warnings
  | none => .item (.error (.malformed .character)) []

def readString (m : Mark) (text : List Char) : Reading :=
  match unescape? m (body text) with
  | some (chars, warnings) => .item (.ok (.string (String.ofList chars))) warnings
  | none => .item (.error (.malformed .string)) []

/-- The reading of a piece that starts at `m`.  The body of a quoted literal starts behind its
quote. -/
def read (m : Mark) (pattern : Pattern) (text : List Char) : Reading :=
  match pattern with
  | .trivia _ => .skipped
  | .decimal => readNumber .integer .integer (decimalValue? text)
  | .hexadecimal => readNumber .integer .integer (hexadecimalValue? text)
  | .real => readNumber .real .real (realValue? text)
  | .character => readCharacter (m.along (text.take 1)) text
  | .string => readString (m.along (text.take 1)) text
  | .word => .item (.ok (readWord text)) []
  | .punct p => .item (.ok (.punct p)) []
  | .illegal => .item (.error .illegal) []

/-- The mark behind a piece.  Line feeds are looked for where there may be some. -/
def markBehind (m : Mark) (pattern : Pattern) (text : List Char) : Mark :=
  if pattern.breaks then m.alongLines text else m.along text

end Lexer

/-- The part of a script that has not been read, and what reading the rest has brought up. -/
structure Lexer where
  rest : List Char
  mark : Mark
  warnings : List Warning

namespace Lexer

def ofSource (source : String) : Lexer :=
  ⟨source.toList, Mark.start, []⟩

/-- The next item, if there is one. -/
def next (l : Lexer) : Option Item × Lexer :=
  match _h : l.rest with
  | [] => (none, l)
  | c :: cs =>
    let (pattern, tail) := recognise c cs
    let text := c :: tail
    let behind : Lexer := ⟨cs.drop tail.length, markBehind l.mark pattern text, l.warnings⟩
    match read l.mark pattern text with
    | .skipped => next behind
    | .item result warnings =>
      (some ⟨l.mark, text, result⟩, { behind with warnings := l.warnings ++ warnings })
termination_by l.rest.length
decreasing_by
  rw [_h, List.length_drop, List.length_cons]
  omega

/-- Every item takes at least one character. -/
theorem length_rest_lt_of_next {l l' : Lexer} {item : Item} (h : l.next = (some item, l')) :
    l'.rest.length < l.rest.length := by
  fun_induction next l with
  | case1 l hl => simp at h
  | case2 l c cs hl pattern tail hp text behind hr ih =>
    have hlt := ih h
    simp only [behind, List.length_drop] at hlt
    rw [hl, List.length_cons]
    omega
  | case3 l c cs hl pattern tail hp text behind result warnings hr =>
    cases h
    simp only [behind, List.length_drop]
    rw [hl, List.length_cons]
    omega

/-- All remaining items, and the lexer at the end. -/
def items (l : Lexer) : List Item × Lexer :=
  match _h : l.next with
  | (none, l') => ([], l')
  | (some item, l') =>
    let (others, final) := items l'
    (item :: others, final)
termination_by l.rest.length
decreasing_by exact length_rest_lt_of_next _h

end Lexer
end Replay
