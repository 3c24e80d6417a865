import FrontendSync.Text.Property

/-!
# Blank characters

The characters of the Unicode property `White_Space`.
-/

namespace FrontendSync.Text

def blankRanges : List (Nat × Nat) :=
  [(0x9, 0xD), (0x20, 0x20), (0x85, 0x85), (0xA0, 0xA0), (0x1680, 0x1680), (0x2000, 0x200A),
   (0x2028, 0x2029), (0x202F, 0x202F), (0x205F, 0x205F), (0x3000, 0x3000)]

/-- A space, tab, line break or one of the other characters of `White_Space`. -/
def isBlank (c : Char) : Bool := within blankRanges c.toNat

end FrontendSync.Text
