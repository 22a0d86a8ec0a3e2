/-
Formula/Text/Hidden.lean

Characters that do not show by themselves.

They are the marks on the character before them, the code points without a
character, and the characters that have no form of their own: the controls,
the format characters, every separator but the plain space, the four Hangul
fillers, and the code points set aside for private use.
-/
import Formula.Text.Mark
import Formula.Text.Unassigned

namespace Formula.Text

/-- The ranges of characters without a form of their own. -/
def formlessRanges : List (Nat × Nat) :=
  [(0x00, 0x1F), (0x7F, 0xA0), (0xAD, 0xAD), (0x600, 0x605), (0x61C, 0x61C), (0x6DD, 0x6DD),
    (0x70F, 0x70F), (0x890, 0x891), (0x8E2, 0x8E2), (0x115F, 0x1160), (0x1680, 0x1680),
    (0x180E, 0x180E), (0x2000, 0x200F), (0x2028, 0x202F), (0x205F, 0x2064), (0x2066, 0x206F),
    (0x3000, 0x3000), (0x3164, 0x3164), (0xE000, 0xF8FF), (0xFEFF, 0xFEFF), (0xFFA0, 0xFFA0),
    (0xFFF9, 0xFFFB), (0x110BD, 0x110BD), (0x110CD, 0x110CD), (0x13430, 0x1343F),
    (0x1BCA0, 0x1BCA3), (0x1D173, 0x1D17A), (0xE0001, 0xE0001), (0xE0020, 0xE007F),
    (0xF0000, 0xFFFFD), (0x100000, 0x10FFFD)]

example : ascending formlessRanges = true := by decide +kernel

/-- Whether a character does not show by itself. -/
def isHidden (c : Char) : Bool := inRanges formlessRanges c || isMark c || isUnassigned c

end Formula.Text
