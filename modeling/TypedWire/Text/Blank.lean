/-! White space around a text: the characters with the Unicode property `White_Space`. -/

namespace TypedWire.Blank

/-- Whether a character is white space. -/
def isBlank (c : Char) : Bool :=
  (0x0009 ≤ c.toNat && c.toNat ≤ 0x000d) || c.toNat = 0x0020 || c.toNat = 0x0085 ||
  c.toNat = 0x00a0 || c.toNat = 0x1680 || (0x2000 ≤ c.toNat && c.toNat ≤ 0x200a) ||
  c.toNat = 0x2028 || c.toNat = 0x2029 || c.toNat = 0x202f || c.toNat = 0x205f || c.toNat = 0x3000

/-- A text without the white space at its ends. -/
def trim (s : List Char) : List Char :=
  ((s.dropWhile isBlank).reverse.dropWhile isBlank).reverse

end TypedWire.Blank
