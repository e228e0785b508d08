import StringResources.Text.Basic

/-! The characters with the Unicode property `White_Space`, and trimming by them. Markup has a smaller
    set of its own (`Markup.isBlank`). -/

namespace StringResources.Text

/-- The ranges of code points with the property `White_Space`, in order. -/
def spaceRanges : List (Nat × Nat) :=
  [(0x9, 0xD), (0x20, 0x20), (0x85, 0x85), (0xA0, 0xA0), (0x1680, 0x1680), (0x2000, 0x200A),
    (0x2028, 0x2029), (0x202F, 0x202F), (0x205F, 0x205F), (0x3000, 0x3000)]

def isSpace (c : Char) : Bool := spaceRanges.any fun (low, high) => low ≤ c.toNat && c.toNat ≤ high

/-- A text without the white space at its end. -/
def trimEndSpaces (t : Text) : Text := trimEnd isSpace t

def isIndent (c : Char) : Bool := c == ' ' || c == '\t'

/-- The code point U+FEFF, which at the start of a text marks its byte order. -/
def byteOrderMark : Char := '\ufeff'

end StringResources.Text
