import TypedWire.Number.Leb128
import TypedWire.Store

/-! Writing values. A value is written by its own shape; that the shape is the one that the header
    says is up to the caller. A write that gives up leaves the bytes that it has written. -/

namespace TypedWire

/-- The bytes written so far. -/
abbrev Output := Array UInt8

namespace Output

/-- Writes bytes as they are. -/
def bytes (bytes : List UInt8) : Action Output Unit := fun out => .ok () (out ++ bytes)

/-- Writes one byte. -/
def byte (b : UInt8) : Action Output Unit := fun out => .ok () (out.push b)

/-- Writes an unsigned number. -/
def unsigned (n : Nat) : Action Output Unit := bytes (Leb128.encodeUnsigned n)

/-- Writes a signed number. -/
def signed (n : Int) : Action Output Unit := bytes (Leb128.encodeSigned n)

/-- Writes a one or a zero. -/
def flag (b : Bool) : Action Output Unit := byte (if b then 1 else 0)

/-- Writes a number of fixed width. -/
def fixed (n : FixedNumber) : Action Output Unit := bytes n.bytes

/-- Writes a byte string, after its length. -/
def blob (content : List UInt8) : Action Output Unit := do
  unsigned content.length
  bytes content

/-- Writes a text, after the length of its UTF-8. -/
def text (s : String) : Action Output Unit := blob (utf8 s)

/-- Writes a principal or a reference to a service: a one, then its bytes, of which there may not be
    too many. -/
def principal (content : List UInt8) : Action Output Unit := do
  if maxPrincipal < content.length then Action.fail .invalid
  byte 1
  blob content

/-- Writes a reference to a function: a one, the reference to its service, and its name there. -/
def func (service : List UInt8) (method : String) : Action Output Unit := do
  byte 1
  principal service
  text method

/-- Writes a value, as far as `depth` nodes down. -/
def valueWithin (s : Store) : (depth : Nat) → ValueId → Action Output Unit
  | 0, _ => Action.fail .overflow
  | depth + 1, id => do
    match ← Action.ofExcept (s.valueAt id) with
    | .null | .reserved => pure ()
    | .bool b => flag b
    | .nat span | .int span => bytes (← Action.ofExcept (s.bytesAt span))
    | .fixed n => fixed n
    | .text span => text (← Action.ofExcept (s.textAt span))
    | .blob span => blob (← Action.ofExcept (s.bytesAt span))
    | .principal span | .service span => principal (← Action.ofExcept (s.bytesAt span))
    | .func service method =>
      func (← Action.ofExcept (s.bytesAt service)) (← Action.ofExcept (s.textAt method))
    | .opt none => flag false
    | .opt (some v) =>
      flag true
      valueWithin s depth v
    | .vec items =>
      unsigned items.length
      items.forM (valueWithin s depth)
    | .record fields => fields.forM fun f => valueWithin s depth f.value
    | .variant index field =>
      unsigned index
      valueWithin s depth field.value

/-- Writes a value, with all its parts. -/
def value (s : Store) (id : ValueId) : Action Output Unit := valueWithin s s.depthBound id

end Output

end TypedWire
