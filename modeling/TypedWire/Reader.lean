import TypedWire.Number.Leb128
import TypedWire.Value

/-! Reading a byte string from front to back. A read that fails leaves the reader where it was; a
    reader placed past the end can read nothing at all, not even no bytes. -/

namespace TypedWire

/-- A place in a byte string. -/
structure Reader where
  offset : Nat
  /-- The bytes from the offset on; none if the offset lies past the end. -/
  unread : Option (List UInt8)

namespace Reader

/-- The reader of `bytes` at `offset`. -/
def ofBytes (bytes : List UInt8) (offset : Nat) : Reader :=
  ⟨offset, if offset ≤ bytes.length then some (bytes.drop offset) else none⟩

/-- How many bytes are left to read. -/
def remaining (r : Reader) : Nat := (r.unread.getD []).length

/-- Reads what `read` finds in front, and moves on by the number of bytes that it takes. -/
def next {α : Type} (read : List UInt8 → Except Fault (α × Nat)) : Action Reader α := fun r =>
  match r.unread with
  | none => .error .truncated r
  | some bytes =>
    match read bytes with
    | .ok (a, n) => .ok a ⟨r.offset + n, some (bytes.drop n)⟩
    | .error e => .error e r

/-- Reads exactly `n` bytes. -/
def bytes (n : Nat) : Action Reader (List UInt8) :=
  next fun unread =>
    let front := unread.take n
    if front.length = n then .ok (front, n) else .error .truncated

/-- Passes over exactly `n` bytes. -/
def skip (n : Nat) : Action Reader Unit := do
  let _ ← bytes n

/-- Reads one byte. -/
def byte : Action Reader UInt8 :=
  next fun
    | b :: _ => .ok (b, 1)
    | [] => .error .truncated

/-- Reads an unsigned 64-bit number. -/
def unsigned : Action Reader Nat := next Leb128.readUnsigned

/-- Reads a signed 64-bit number. -/
def signed : Action Reader Int := next Leb128.readSigned

/-- Reads the bytes of a number of any width. -/
def number : Action Reader (List UInt8) :=
  next fun unread => do
    let n ← Leb128.readLength unread
    return (unread.take n, n)

/-- Reads a number of fixed width. -/
def fixed (kind : Fixed) : Action Reader FixedNumber := do
  return .ofBytes kind (← bytes kind.width)

/-! ### Payloads -/

/-- Reads a length, and the UTF-8 text of so many bytes. -/
def text : Action Reader String := do
  match utf8? (← bytes (← unsigned)) with
  | some text => return text
  | none => Action.fail .invalid

/-- Reads a length, and so many bytes of a principal. -/
def principalBody : Action Reader (List UInt8) := do
  let length ← unsigned
  if maxPrincipal < length then Action.fail .invalid
  bytes length

/-- Reads a principal: a one, then its bytes. -/
def principal : Action Reader (List UInt8) := do
  unless (← byte) = 1 do Action.fail .invalid
  principalBody

/-- Reads the flag of a reference: a one, since a reference without contents is not supported. -/
def referenceFlag : Action Reader Unit := do
  match ← byte with
  | 0 => Action.fail .unsupported
  | 1 => pure ()
  | _ => Action.fail .invalid

/-- Reads a reference to a service: its principal. -/
def service : Action Reader (List UInt8) := do
  referenceFlag
  principalBody

/-- Reads a reference to a function: the principal of its service, and its name there. -/
def func : Action Reader (List UInt8 × String) := do
  referenceFlag
  return (← service, ← text)

end Reader

end TypedWire
