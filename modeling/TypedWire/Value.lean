import TypedWire.Schema.Node

/-! Value nodes. A node names its parts by handles into a store; texts, byte strings and numbers of
    any width are spans of bytes in the same store. -/

namespace TypedWire

/-- The handle of a value node: its allocation number in a store. -/
structure ValueId where
  index : Nat
  deriving DecidableEq, Repr

/-- Where a byte string lies in a store. -/
structure Span where
  block : Nat
  start : Nat
  length : Nat
  deriving DecidableEq, Repr

/-- The span of the empty byte string, which every store has. -/
def Span.empty : Span := ⟨0, 0, 0⟩

/-- A number of fixed width, as its bits. -/
structure FixedNumber where
  kind : Fixed
  bits : BitVec kind.bits
  deriving DecidableEq, Repr

namespace FixedNumber

/-- The number whose bytes are given, the lowest first. -/
def ofBytes (kind : Fixed) (bytes : List UInt8) : FixedNumber :=
  ⟨kind, BitVec.ofNat kind.bits (bytes.foldr (fun b n => b.toNat + 256 * n) 0)⟩

/-- The lowest `width` bytes of a natural number, the lowest first. -/
def lowBytes : (width n : Nat) → List UInt8
  | 0, _ => []
  | width + 1, n => UInt8.ofNat (n % 256) :: lowBytes width (n / 256)

/-- The bytes of a number, the lowest first. -/
def bytes (n : FixedNumber) : List UInt8 := lowBytes n.kind.width n.bits.toNat

/-- A byte as a number. -/
def ofByte (b : UInt8) : FixedNumber := ⟨.nat8, b.toBitVec⟩

end FixedNumber

/-- The value of a record's field, or of the active field of a variant. -/
structure FieldValue where
  label : Label
  value : ValueId
  deriving DecidableEq, Repr

/-- One node of a value. -/
inductive Value where
  | null
  | reserved
  | bool (b : Bool)
  /-- A natural number of any width, as LEB128. -/
  | nat (number : Span)
  /-- An integer of any width, as signed LEB128. -/
  | int (number : Span)
  | fixed (n : FixedNumber)
  | text (utf8 : Span)
  | principal (bytes : Span)
  /-- A `vec nat8`, as its bytes. -/
  | blob (bytes : Span)
  | opt (inner : Option ValueId)
  | vec (items : List ValueId)
  | record (fields : List FieldValue)
  /-- The active field, and its place among the fields of the type. -/
  | variant (index : Nat) (field : FieldValue)
  | service (principal : Span)
  | func (service method : Span)
  deriving DecidableEq, Repr

/-- The longest principal that is accepted, in bytes. -/
def maxPrincipal : Nat := 29

end TypedWire
