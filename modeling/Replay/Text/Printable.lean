/-!
Characters that are shown as they are.

A message never shows a character that would leave no visible mark of its own: controls, separators
other than the space, format and private-use characters, noncharacters, and marks that combine with
what stands before them.
-/

namespace Replay
namespace Text

/-- Code point ranges, both ends included, in increasing order. -/
def hidden : List (Nat × Nat) :=
  [(0x0000, 0x001F), (0x007F, 0x00A0), (0x00AD, 0x00AD), (0x0300, 0x036F), (0x0483, 0x0489),
   (0x0591, 0x05BD), (0x05BF, 0x05BF), (0x05C1, 0x05C2), (0x05C4, 0x05C5), (0x05C7, 0x05C7),
   (0x0600, 0x0605), (0x0610, 0x061A), (0x061C, 0x061C), (0x064B, 0x065F), (0x0670, 0x0670),
   (0x06D6, 0x06DD), (0x06DF, 0x06E4), (0x06E7, 0x06E8), (0x06EA, 0x06ED), (0x070F, 0x070F),
   (0x0711, 0x0711), (0x0730, 0x074A), (0x1680, 0x1680), (0x180B, 0x180F), (0x1AB0, 0x1ACE),
   (0x1DC0, 0x1DFF), (0x2000, 0x200F), (0x2028, 0x202F), (0x205F, 0x206F), (0x20D0, 0x20F0),
   (0x3000, 0x3000), (0x302A, 0x302F), (0x3099, 0x309A), (0xE000, 0xF8FF), (0xFDD0, 0xFDEF),
   (0xFE00, 0xFE0F), (0xFE20, 0xFE2F), (0xFEFF, 0xFEFF), (0xFFF0, 0xFFFB), (0xFFFE, 0xFFFF),
   (0xE0000, 0x10FFFF)]

def isPrintable (c : Char) : Bool :=
  hidden.all fun (first, last) => c.toNat < first || last < c.toNat

end Text
end Replay
