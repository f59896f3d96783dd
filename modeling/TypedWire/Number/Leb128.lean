import TypedWire.Fault
import TypedWire.Number.Power

/-! LEB128: a number as 7-bit groups, the lowest first, each in a byte whose top bit says that
    another follows. A signed number is read in two's complement, its sign being bit 6 of the last
    byte. This module gives the number that a string of groups denotes, whatever its length, the
    readers that admit 64-bit numbers only, and the shortest encodings. -/

namespace TypedWire.Leb128

/-- The seven payload bits of a byte. -/
def group (b : UInt8) : Nat := b.toNat % 128

/-- Whether another byte of the same number follows. -/
def continues (b : UInt8) : Bool := 128 ≤ b.toNat

/-- Whether a last byte makes a signed number negative. -/
def signed (b : UInt8) : Bool := 64 ≤ group b

/-! ### The number denoted -/

/-- The number that the groups of `bytes` spell. -/
def unsignedValue : List UInt8 → Nat
  | [] => 0
  | b :: rest => group b + 128 * unsignedValue rest

/-- The number that the groups of `bytes` spell in two's complement. -/
def signedValue : List UInt8 → Int
  | [] => 0
  | [b] => if signed b then (group b : Int) - 128 else group b
  | b :: rest => group b + 128 * signedValue rest

/-- How many bytes the number in front takes; none if no byte ends it. -/
def length? : List UInt8 → Option Nat
  | [] => none
  | b :: rest => if continues b then (length? rest).map (· + 1) else some 1

/-- Exactly one number: the last byte, and no other, says that none follows. -/
def IsNumber (bytes : List UInt8) : Prop := length? bytes = some bytes.length

instance (bytes : List UInt8) : Decidable (IsNumber bytes) := inferInstanceAs (Decidable (_ = _))

/-! ### Reading 64-bit numbers -/

/-- Reads on after `place` groups that spell `value`. -/
def readUnsignedFrom (place value : Nat) : List UInt8 → Except Fault (Nat × Nat)
  | [] => .error .truncated
  | b :: rest =>
    let value := value + group b * 128 ^ place
    if 2 ^ 64 ≤ value then .error .overflow
    else if continues b then readUnsignedFrom (place + 1) value rest
    else .ok (value, place + 1)

/-- Reads an unsigned number below `2 ^ 64`: the number and how many bytes it takes. Padding with
    zero groups is allowed to any length. -/
def readUnsigned (bytes : List UInt8) : Except Fault (Nat × Nat) := readUnsignedFrom 0 0 bytes

/-- Whether `v` fits in 64 bits with a sign. -/
def IsInt64 (v : Int) : Prop := -2 ^ 63 ≤ v ∧ v < 2 ^ 63

instance (v : Int) : Decidable (IsInt64 v) := inferInstanceAs (Decidable (_ ∧ _))

/-- Reads on after `place` groups that spell `value`. From the eleventh byte on only a last byte of
    pure sign is allowed. -/
def readSignedFrom (place value : Nat) : List UInt8 → Except Fault (Int × Nat)
  | [] => .error .truncated
  | b :: rest =>
    if 10 ≤ place ∧ b ≠ 0x00 ∧ b ≠ 0x7f then .error .overflow
    else
      let value := value + group b * 128 ^ place
      if continues b then readSignedFrom (place + 1) value rest
      else
        let number : Int := if signed b then value - 128 ^ (place + 1) else value
        if IsInt64 number then .ok (number, place + 1) else .error .overflow

/-- Reads a signed 64-bit number: the number and how many bytes it takes. -/
def readSigned (bytes : List UInt8) : Except Fault (Int × Nat) := readSignedFrom 0 0 bytes

/-- The bytes that the number in front takes, whatever its width. -/
def readLength (bytes : List UInt8) : Except Fault Nat :=
  match length? bytes with
  | some n => .ok n
  | none => .error .truncated

/-! ### Writing -/

/-- The shortest encoding of an unsigned number. -/
def encodeUnsigned (v : Nat) : List UInt8 :=
  if v < 128 then [UInt8.ofNat v]
  else UInt8.ofNat (v % 128 + 128) :: encodeUnsigned (v / 128)
termination_by v

/-- The shortest encoding of a signed number. -/
def encodeSigned (v : Int) : List UInt8 :=
  if -64 ≤ v ∧ v < 64 then [UInt8.ofNat (v % 128).toNat]
  else UInt8.ofNat ((v % 128).toNat + 128) :: encodeSigned (v / 128)
termination_by v.natAbs
decreasing_by omega

/-- Writes `number` over the front of `buffer`: how many bytes were written, or an overflow once the
    buffer is full, and the buffer afterwards. -/
def place : (number buffer : List UInt8) → Except Fault Nat × List UInt8
  | [], buffer => (.ok 0, buffer)
  | _ :: _, [] => (.error .overflow, [])
  | b :: number, _ :: buffer =>
    let (written, rest) := place number buffer
    (written.map (· + 1), b :: rest)

/-- The signed encoding of the number that `bytes` spells unsigned: where the last group would be
    taken for a negative number, a zero group is put behind it. -/
def widen : List UInt8 → Except Fault (List UInt8)
  | [] => .error .truncated
  | [b] => .ok (if signed b then [b ||| 0x80, 0x00] else [b])
  | b :: rest => (widen rest).map (b :: ·)

end TypedWire.Leb128
