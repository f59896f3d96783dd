import TypedWire.Number.Leb128
import TypedWire.Store

/-! Reading the contents of a value that is expected to be of one sort. -/

namespace TypedWire

/-- A fixed-width number without a sign. -/
def FixedNumber.unsigned? (n : FixedNumber) : Option Nat :=
  match n.kind with
  | .nat8 | .nat16 | .nat32 | .nat64 => some n.bits.toNat
  | _ => none

/-- A fixed-width number with a sign. -/
def FixedNumber.signed? (n : FixedNumber) : Option Int :=
  match n.kind with
  | .int8 | .int16 | .int32 | .int64 => some n.bits.toInt
  | _ => none

namespace Store

/-- The text of a text value. -/
def textOf (s : Store) (id : ValueId) : Except Fault String := do
  match ← s.valueAt id with
  | .text span => s.textAt span
  | _ => throw .invalid

/-- The bytes of a byte string, a principal or a reference to a service. -/
def bytesOf (s : Store) (id : ValueId) : Except Fault (List UInt8) := do
  match ← s.valueAt id with
  | .blob span | .principal span | .service span => s.bytesAt span
  | _ => throw .invalid

/-- A value without a sign as a 64-bit number. -/
def unsignedOf (s : Store) (id : ValueId) : Except Fault Nat := do
  match ← s.valueAt id with
  | .nat span => return (← Leb128.readUnsigned (← s.bytesAt span)).1
  | .fixed n =>
    match n.unsigned? with
    | some v => return v
    | none => throw .invalid
  | _ => throw .invalid

/-- A value with a sign as a 64-bit number. -/
def signedOf (s : Store) (id : ValueId) : Except Fault Int := do
  match ← s.valueAt id with
  | .int span => return (← Leb128.readSigned (← s.bytesAt span)).1
  | .fixed n =>
    match n.signed? with
    | some v => return v
    | none => throw .invalid
  | _ => throw .invalid

end Store

end TypedWire
