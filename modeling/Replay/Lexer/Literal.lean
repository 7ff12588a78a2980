import Replay.Error
/-!
The values of literals.
-/

namespace Replay

/-- A backslash before a character that needs none.  The character stands for itself. -/
structure Warning where
  escape : Char
  location : Location
deriving DecidableEq

def Warning.message (w : Warning) : String :=
  String.ofList ("Warning at ".toList ++ w.location.describe.toList ++
    ": Unrecognized escape sequence '".toList ++ [Text.backslash, w.escape] ++
    "', using '".toList ++
    [w.escape] ++ "'.".toList)

namespace Lexer

/-! ## Numbers -/

def digitValue? (c : Char) : Option Nat :=
  if c.isDigit then some (c.toNat - '0'.toNat)
  else if 'a' ≤ c ∧ c ≤ 'f' then some (c.toNat - 'a'.toNat + 10)
  else if 'A' ≤ c ∧ c ≤ 'F' then some (c.toNat - 'A'.toNat + 10)
  else none

/-- The number that a row of digits denotes, `none` if one of them is not below the base. -/
def natOfDigits? (base : Nat) (digits : List Char) : Option Nat :=
  digits.foldlM (fun n c => do
    let d ← digitValue? c
    if d < base then some (n * base + d) else none) 0

/-- An integer literal is never negative, so it needs only to stay below `2 ^ 63`. -/
def integerOfDigits? (base : Nat) (digits : List Char) : Option Int64 := do
  let n ← natOfDigits? base digits
  if n < 1 <<< 63 then some (Int64.ofNat n) else none

/-- A leading zero that is not the whole number announces octal digits. -/
def decimalValue? : List Char → Option Int64
  | '0' :: c :: cs => integerOfDigits? 8 (c :: cs)
  | text => integerOfDigits? 10 text

/-- The digits behind the base mark. -/
def hexadecimalValue? (text : List Char) : Option Int64 :=
  integerOfDigits? 16 (text.drop 2)

/-- Digits with a point among them, rounded to the nearest representable number. -/
def realValue? (text : List Char) : Option Float := do
  let whole := text.takeWhile Char.isDigit
  let fraction := (text.dropWhile Char.isDigit).drop 1
  let n ← natOfDigits? 10 (whole ++ fraction)
  some (Float.ofScientific n true fraction.length)

/-! ## Escapes -/

def simpleEscape? : Char → Option Char
  | 'n' => some '\n'
  | 't' => some '\t'
  | 'r' => some '\r'
  | '0' => some '\x00'
  | 'a' => some '\x07'
  | 'b' => some '\x08'
  | 'f' => some '\x0c'
  | 'v' => some '\x0b'
  | '\x5c' => some '\x5c'
  | '\x27' => some '\x27'
  | '\x22' => some '\x22'
  | _ => none

/-- A character given by two characters of hexadecimal, the first of which may be a plus sign. -/
def byteEscape? (a b : Char) : Option Char := do
  let n ← natOfDigits? 16 (if a = '+' then [b] else [a, b])
  some (Char.ofNat n)

/-- The text of a literal without its quotes, with the escapes replaced.  `m` is the mark of the
first character.  There is no text if a hexadecimal escape is malformed, and no warnings either. -/
def unescape? (m : Mark) : List Char → Option (List Char × List Warning)
  | [] => some ([], [])
  | '\x5c' :: 'x' :: a :: b :: cs => do
    let c ← byteEscape? a b
    let (text, warnings) ← unescape? (m.along ['\x5c', 'x', a, b]) cs
    some (c :: text, warnings)
  | '\x5c' :: 'x' :: _ => none
  | ['\x5c'] => none
  | '\x5c' :: c :: cs => do
    let (text, warnings) ← unescape? (m.along ['\x5c', c]) cs
    match simpleEscape? c with
    | some d => some (d :: text, warnings)
    | none => some (c :: text, ⟨c, m.location⟩ :: warnings)
  | c :: cs => do
    let (text, warnings) ← unescape? (m.along [c]) cs
    some (c :: text, warnings)

/-- The characters between the quotes. -/
def body (text : List Char) : List Char :=
  (text.drop 1).dropLast

end Lexer
end Replay
