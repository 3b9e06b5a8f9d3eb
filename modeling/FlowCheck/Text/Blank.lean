/-! # Blanks

The characters that separate and mean nothing else: those with the Unicode property White_Space. -/

namespace FlowCheck.Text

/-- A character with the property White_Space: tab, the line breaks, the spaces of every width. The
zero-width space and the byte order mark are not among them. -/
def isBlank (c : Char) : Bool :=
  let code := c.toNat
  (0x09 ≤ code && code ≤ 0x0D) || code == 0x20 || code == 0x85 || code == 0xA0 || code == 0x1680 ||
    (0x2000 ≤ code && code ≤ 0x200A) || code == 0x2028 || code == 0x2029 || code == 0x202F ||
    code == 0x205F || code == 0x3000

end FlowCheck.Text
