import TypedWire.Fault
import TypedWire.Number.Power
import TypedWire.Value

/-! The store of a session: type nodes, value nodes and byte strings, each named by where it lies.
    Nothing is taken out, so what a handle or span names stays the same; what is put in is charged
    against a budget. The numbers of a span have 32 bits. The handles of nodes and the charge are numbers
    without a bound here, and have the bits of a machine in `TypedWire.Store.Word`. -/

namespace TypedWire

/-- A stretch of bytes that is filled from the front. -/
structure Block where
  capacity : Nat
  bytes : Array UInt8
  deriving DecidableEq

/-- What memory gives where an address has 47 bits: every block that has addresses, just as it was asked
    for. -/
def addressed (capacity : Nat) : Option Nat := if capacity < 2 ^ 47 then some 0 else none

/-- The nodes and bytes of a session. -/
structure Store where
  /-- The least capacity of a block. -/
  blockSize : Nat := 4096
  /-- The most that may be charged. -/
  limit : Option Nat := none
  /-- The bytes that memory gives a block beyond the capacity asked for; none if it cannot be had. -/
  spare : (capacity : Nat) → Option Nat := addressed
  types : Array TypeNode := #[]
  values : Array Value := #[]
  blocks : Array Block := #[]
  /-- What has been charged so far. -/
  charged : Nat := 0

namespace Store

/-- The charge of a type node. -/
def typeCharge : Nat := 72

/-- The charge of a value node. -/
def valueCharge : Nat := 40

/-- The store without its contents. -/
def cleared (s : Store) : Store := { blockSize := s.blockSize, limit := s.limit, spare := s.spare }

/-! ### Putting in -/

/-- Charges `n`, unless that passes the limit. -/
def charge (n : Nat) : Action Store Unit := fun s =>
  if s.limit.any (· < s.charged + n) then .error .storeFull s
  else .ok () { s with charged := s.charged + n }

/-- Puts a type node in. -/
def putType (node : TypeNode) : Action Store TypeId := do
  charge typeCharge
  fun s => .ok ⟨s.types.size⟩ { s with types := s.types.push node }

/-- Puts a value node in. -/
def putValue (value : Value) : Action Store ValueId := do
  charge valueCharge
  fun s => .ok ⟨s.values.size⟩ { s with values := s.values.push value }

/-! ### A place for bytes -/

/-- Goes on if a limit is kept. -/
def require (kept : Bool) : Action Store Unit := fun s => if kept then .ok () s else .error .storeFull s

/-- Whether the last block has room for `n` more bytes. -/
def hasRoom (s : Store) (n : Nat) : Bool :=
  s.blocks.back?.any fun b => b.bytes.size + n ≤ b.capacity

/-- Opens a new block that can hold `n` bytes, if memory has one. -/
def openBlock (spare : Nat → Option Nat) (n : Nat) : Action Store Unit := fun s =>
  let capacity := max (max s.blockSize 1) n
  match spare capacity with
  | some more => .ok () { s with blocks := s.blocks.push ⟨capacity + more, #[]⟩ }
  | none => .error .storeFull s

/-- Makes room for `n` more bytes in the last block: in the one there is, or in a new one. -/
def makeRoom (spare : Nat → Option Nat) (n : Nat) : Action Store Unit := fun s =>
  if s.hasRoom n then .ok () s else openBlock spare n s

/-- Adds `bytes` to the last block. -/
def append (bytes : List UInt8) : Action Store Span := fun s =>
  let last := s.blocks.size - 1
  let start := (s.blocks[last]?.map (·.bytes.size)).getD 0
  .ok ⟨last, start, bytes.length⟩
    { s with blocks := s.blocks.modify last fun b => { b with bytes := b.bytes ++ bytes } }

/-- Adds `bytes` to the last block, if its number and the place in it have 32 bits. The number is looked at
    last, when the bytes are there. -/
def extendLast (bytes : List UInt8) : Action Store Span := do
  require ((← get).blocks.back?.all (·.bytes.size < 2 ^ 32))
  let span ← append bytes
  require (span.block < 2 ^ 32)
  return span

/-- Finds a place for a byte string whose length has 32 bits, in the last block or in a new one. -/
def place (spare : Nat → Option Nat) (bytes : List UInt8) : Action Store Span :=
  if bytes.isEmpty then pure .empty
  else do
    require (bytes.length < 2 ^ 32)
    makeRoom spare bytes.length
    extendLast bytes

/-- Puts a byte string in. The charge comes first, and stays if there is no place. -/
def putBytes (bytes : List UInt8) : Action Store Span := do
  charge bytes.length
  place (← get).spare bytes

/-! ### Looking up -/

/-- The type node behind a handle. -/
def typeAt (s : Store) (id : TypeId) : Except Fault TypeNode :=
  match s.types[id.index]? with
  | some node => .ok node
  | none => .error .invalid

/-- The value node behind a handle. -/
def valueAt (s : Store) (id : ValueId) : Except Fault Value :=
  match s.values[id.index]? with
  | some value => .ok value
  | none => .error .invalid

/-- The bytes of a span. -/
def bytesAt (s : Store) (span : Span) : Except Fault (List UInt8) :=
  if span.length = 0 then .ok []
  else match s.blocks[span.block]? with
    | some b =>
      let stop := span.start + span.length
      if stop ≤ b.bytes.size then .ok (b.bytes.extract span.start stop).toList else .error .invalid
    | none => .error .invalid

/-- The text of a span. -/
def textAt (s : Store) (span : Span) : Except Fault String := do
  match utf8? (← s.bytesAt span) with
  | some text => return text
  | none => throw .invalid

/-- How many nodes of a value can be met one inside the other, the last of which may lie outside the
    store: a longer chain of parts meets a node twice, and so has no end. -/
def depthBound (s : Store) : Nat := s.values.size + 1

end Store

end TypedWire
