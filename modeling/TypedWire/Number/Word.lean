import TypedWire.Number.Leb128

/-! LEB128 on machine words. The loops that read a number into a word and write one from a word use
    shifts, masks and sums of words, and these have limits: a shift must be by less than the width, and
    a sum or an opposite must be a word itself. What breaks a limit gives no answer at all, which is not
    the same as an answer that says that the number is too large. -/

namespace TypedWire.Leb128.Word

variable {w : Nat}

/-! ### Operations that have limits -/

/-- Moves a word up, if by less than its width. -/
def shiftLeft? (x : BitVec w) (k : BitVec 32) : Option (BitVec w) :=
  if k.toNat < w then some (x <<< k.toNat) else none

/-- Moves a word down, if by less than its width. -/
def shiftRight? (x : BitVec w) (k : BitVec 32) : Option (BitVec w) :=
  if k.toNat < w then some (x >>> k.toNat) else none

/-- The sum, if it is a word. -/
def add? (x y : BitVec w) : Option (BitVec w) :=
  if x.toNat + y.toNat < 2 ^ w then some (x + y) else none

/-- The sum, or the largest word if that is too large. -/
def addUpTo (x y : BitVec w) : BitVec w :=
  if x.toNat + y.toNat < 2 ^ w then x + y else .allOnes w

/-- The opposite of a signed word, if it is one. -/
def neg? (x : BitVec w) : Option (BitVec w) := if x = .intMin w then none else some (-x)

/-! ### Reading -/

/-- Puts the group of `b` above the `shift` bits that have been read. Above the word only zero groups
    are allowed. -/
def unsignedGroup? (value : BitVec 64) (shift : BitVec 32) (b : UInt8) :
    Option (Except Fault (BitVec 64)) := do
  let chunk := (b &&& 0x7f).toBitVec.setWidth 64
  if 64 ≤ shift.toNat then return if chunk ≠ 0 then .error .overflow else .ok value
  let shifted ← shiftLeft? chunk shift
  return if (← shiftRight? shifted shift) ≠ chunk then .error .overflow else .ok (value ||| shifted)

/-- Reads on after `count` bytes. -/
def readUnsignedFrom? (value : BitVec 64) (shift : BitVec 32) (count : Nat) :
    List UInt8 → Option (Except Fault (BitVec 64 × Nat))
  | [] => some (.error .truncated)
  | b :: rest => do
    match ← unsignedGroup? value shift b with
    | .error e => return .error e
    | .ok value =>
      if b &&& 0x80 = 0 then return .ok (value, count + 1)
      readUnsignedFrom? value (addUpTo shift 7) (count + 1) rest

/-- Reads an unsigned word: the word and how many bytes it takes. -/
def readUnsigned? (bytes : List UInt8) : Option (Except Fault (BitVec 64 × Nat)) :=
  readUnsignedFrom? 0 0 0 bytes

/-- Puts the group of `b` above the `shift` bits that have been read, and says how many there are then.
    Above 64 bits only a last byte of pure sign is allowed. -/
def signedGroup? (value : BitVec 128) (shift : BitVec 32) (b : UInt8) :
    Option (Except Fault (BitVec 128 × BitVec 32)) := do
  if 64 ≤ shift.toNat ∧ b ≠ 0x00 ∧ b ≠ 0x7f then return .error .overflow
  let shifted ← shiftLeft? ((b &&& 0x7f).toBitVec.setWidth 128) shift
  return .ok (value ||| shifted, ← add? shift 7)

/-- Extends the sign of the last byte above the `shift` bits that have been read. -/
def extendSign? (value : BitVec 128) (shift : BitVec 32) (last : UInt8) : Option (BitVec 128) := do
  if last &&& 0x40 ≠ 0 ∧ shift.toNat < 128 then
    return value ||| (← neg? (← shiftLeft? 1 shift))
  return value

/-- The word, if a shorter one can hold it. -/
def narrow (value : BitVec 128) : Except Fault (BitVec 64) :=
  if IsInt64 value.toInt then .ok (value.setWidth 64) else .error .overflow

/-- Reads on after `count` bytes. -/
def readSignedFrom? (value : BitVec 128) (shift : BitVec 32) (count : Nat) :
    List UInt8 → Option (Except Fault (BitVec 64 × Nat))
  | [] => some (.error .truncated)
  | b :: rest => do
    match ← signedGroup? value shift b with
    | .error e => return .error e
    | .ok (value, shift) =>
      if b &&& 0x80 = 0 then
        return (narrow (← extendSign? value shift b)).map (·, count + 1)
      readSignedFrom? value shift (count + 1) rest

/-- Reads a signed word: the word and how many bytes it takes. -/
def readSigned? (bytes : List UInt8) : Option (Except Fault (BitVec 64 × Nat)) :=
  readSignedFrom? 0 0 0 bytes

/-! ### Writing -/

/-- The lowest seven bits of a word, as a byte. -/
def lowGroup (value : BitVec 64) : UInt8 := .ofBitVec ((value &&& 0x7f).setWidth 8)

/-- Writes an unsigned word over the front of a buffer: how many bytes were written, or an overflow once
    the buffer is full, and the buffer afterwards. -/
def writeUnsigned (value : BitVec 64) : (buffer : List UInt8) → Except Fault Nat × List UInt8
  | [] => (.error .overflow, [])
  | _ :: buffer =>
    let more := value >>> 7
    if more = 0 then (.ok 1, lowGroup value :: buffer)
    else
      let (written, buffer) := writeUnsigned more buffer
      (written.map (· + 1), (lowGroup value ||| 0x80) :: buffer)

/-- Writes a signed word over the front of a buffer. The number ends where all that is left is the sign
    of the group. -/
def writeSigned (value : BitVec 64) : (buffer : List UInt8) → Except Fault Nat × List UInt8
  | [] => (.error .overflow, [])
  | _ :: buffer =>
    let more := value.sshiftRight 6
    if more = 0 ∨ more = -1 then (.ok 1, lowGroup value :: buffer)
    else
      let (written, buffer) := writeSigned (more.sshiftRight 1) buffer
      (written.map (· + 1), (lowGroup value ||| 0x80) :: buffer)

/-- What a buffer of ten bytes holds after a write into it; nothing if the write failed. -/
def written (write : List UInt8 → Except Fault Nat × List UInt8) : List UInt8 :=
  match write (List.replicate 10 0) with
  | (.ok n, buffer) => buffer.take n
  | (.error _, _) => []

end TypedWire.Leb128.Word
