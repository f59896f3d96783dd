import TypedWire.Schema.Label
import TypedWire.Text.Hex

/-! Texts between quotes. Printable ASCII stands for itself, apart from the quote and the backslash;
    everything else is written with a backslash, as a letter or as the bytes of its UTF-8. -/

namespace TypedWire.Quoted

/-- A byte as a backslash and two digits. -/
def escapeByte (b : UInt8) : List Char := '\\' :: Hex.ofByte b

/-- A character as it stands between quotes. -/
def escape (c : Char) : List Char :=
  if c = '\n' then ['\\', 'n']
  else if c = '\r' then ['\\', 'r']
  else if c = '\t' then ['\\', 't']
  else if c = '"' then ['\\', '"']
  else if c = '\\' then ['\\', '\\']
  else if ' ' ≤ c ∧ c ≤ '~' then [c]
  else (utf8 (String.singleton c)).flatMap escapeByte

/-- A text between quotes. -/
def text (s : String) : String := "\"" ++ String.ofList (s.toList.flatMap escape) ++ "\""

/-- A byte string between quotes, each byte with a backslash. -/
def blob (bytes : List UInt8) : String :=
  "\"" ++ String.ofList (bytes.flatMap escapeByte) ++ "\""

/-- A byte string between quotes, as digits. -/
def hex (bytes : List UInt8) : String := "\"" ++ Hex.encode bytes ++ "\""

end TypedWire.Quoted
