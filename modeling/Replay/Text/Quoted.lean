import Replay.Text.Printable
/-!
Characters and strings between quotes, as messages show them.
-/

namespace Replay
namespace Text

def singleQuote : Char := '\x27'

def doubleQuote : Char := '\x22'

def backslash : Char := '\x5c'

/-- A code point in braces, in lower-case hexadecimal without padding. -/
def codePoint (c : Char) : List Char :=
  [backslash, 'u', '\x7b'] ++ Nat.toDigits 16 c.toNat ++ ['\x7d']

/-- Only the quote that encloses the text is escaped, not the other one. -/
def escaped (quote c : Char) : List Char :=
  if c = '\x00' then [backslash, '0']
  else if c = '\t' then [backslash, 't']
  else if c = '\r' then [backslash, 'r']
  else if c = '\n' then [backslash, 'n']
  else if c = backslash ∨ c = quote then [backslash, c]
  else if isPrintable c then [c]
  else codePoint c

def quoted (quote : Char) (text : List Char) : String :=
  String.ofList (quote :: text.flatMap (escaped quote) ++ [quote])

def quotedChar (c : Char) : String :=
  quoted singleQuote [c]

def quotedString (s : String) : String :=
  quoted doubleQuote s.toList

end Text
end Replay
