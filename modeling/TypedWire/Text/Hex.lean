/-! Byte strings in hexadecimal, two digits a byte. -/

namespace TypedWire.Hex

/-- The digit of a number below sixteen. -/
def digit (n : Nat) : Char := "0123456789abcdef".toList.getD n '0'

/-- The two digits of a byte. -/
def ofByte (b : UInt8) : List Char := [digit (b.toNat / 16), digit (b.toNat % 16)]

/-- The digits of a byte string. -/
def encode (bytes : List UInt8) : String := String.ofList (bytes.flatMap ofByte)

/-- The number of a digit, small or capital. -/
def value? (b : UInt8) : Option Nat :=
  let n := b.toNat
  if 0x30 ≤ n ∧ n ≤ 0x39 then some (n - 0x30)
  else if 0x61 ≤ n ∧ n ≤ 0x66 then some (n - 0x61 + 10)
  else if 0x41 ≤ n ∧ n ≤ 0x46 then some (n - 0x41 + 10)
  else none

/-- Why a text is no byte string in hexadecimal. -/
inductive Fault where
  /-- The last byte has one digit only. -/
  | oddLength
  /-- The byte at this position of the text is no digit. -/
  | badDigit (b : UInt8) (position : Nat)
  deriving DecidableEq, Repr

/-- Whether a character, one of the first 256, is shown as it is. -/
def isPrintable (n : Nat) : Bool := 0x20 ≤ n && n < 0x7f || 0xa1 ≤ n && n ≠ 0xad

/-- A byte as the character with its number, between single quotes. -/
def quoteByte (b : UInt8) : String :=
  let n := b.toNat
  let shown :=
    if n = 0 then "\\0"
    else if n = 9 then "\\t"
    else if n = 10 then "\\n"
    else if n = 13 then "\\r"
    else if n = 39 then "\\'"
    else if n = 92 then "\\\\"
    else if isPrintable n then String.singleton (Char.ofNat n)
    else "\\u\x7b" ++ String.ofList (Nat.toDigits 16 n) ++ "\x7d"
  "'" ++ shown ++ "'"

/-- The text shown to a user. -/
def Fault.message : Fault → String
  | .oddLength => "Odd number of digits"
  | .badDigit b position => "Invalid character " ++ quoteByte b ++ " at position " ++ toString position

/-- The bytes of pairs of digits, from a position of the text on. -/
def decodeFrom (position : Nat) : List UInt8 → Except Fault (List UInt8)
  | high :: low :: rest =>
    match value? high, value? low with
    | some h, some l => (UInt8.ofNat (16 * h + l) :: ·) <$> decodeFrom (position + 2) rest
    | none, _ => .error (.badDigit high position)
    | _, none => .error (.badDigit low (position + 1))
  | _ => .ok []

/-- The bytes that a text, given by its UTF-8, spells in hexadecimal. -/
def decode (text : List UInt8) : Except Fault (List UInt8) :=
  if text.length % 2 = 1 then .error .oddLength else decodeFrom 0 text

end TypedWire.Hex
