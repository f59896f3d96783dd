import TypedWire.Schema.Env
import TypedWire.Reader

/-! The header of a message: the magic bytes, a table of types, and the types of the arguments. A
    reference in a header is the number of a table slot or of a type without parts. Each slot is a
    name bound to the type of its entry, so entries may refer to each other in any order. -/

namespace TypedWire

/-- What a header says. -/
structure Header where
  /-- The type of each table slot. -/
  table : List TypeId
  /-- The type of each argument. -/
  args : List TypeId
  /-- The names of the slots, each bound to its type. -/
  env : Env

namespace Header

/-- The bytes that every message starts with. -/
def magic : List UInt8 := [0x44, 0x49, 0x44, 0x4c]

/-- The name of a table slot. -/
def slotName (i : Nat) : String := "table" ++ toString i

/-- What has been made while a header is read. -/
structure State where
  reader : Reader
  store : Store
  /-- The node of each type without parts that has been referred to. -/
  shared : List (Primitive × TypeId) := []

/-- Reads on. -/
def read {α : Type} (action : Action Reader α) : Action State α := fun ⟨reader, store, shared⟩ =>
  match action reader with
  | .ok a reader => .ok a ⟨reader, store, shared⟩
  | .error e reader => .error e ⟨reader, store, shared⟩

/-- Puts something into the store. -/
def put {α : Type} (action : Action Store α) : Action State α := fun ⟨reader, store, shared⟩ =>
  match action store with
  | .ok a store => .ok a ⟨reader, store, shared⟩
  | .error e store => .error e ⟨reader, store, shared⟩

/-- The one node of a type without parts, made at the first reference. -/
def primitiveNode (p : Primitive) : Action State TypeId := do
  match (← get).shared.lookup p with
  | some type => return type
  | none =>
    let type ← put (Store.putType (.primitive p))
    modify fun s => { s with shared := (p, type) :: s.shared }
    return type

/-- Reads a reference to a slot or to a type without parts. -/
def reference (slots : Array TypeId) : Action State TypeId := do
  let n ← read Reader.signed
  if 0 ≤ n then
    match slots[n.toNat]? with
    | some type => return type
    | none => Action.fail .invalid
  else
    match Primitive.ofOpcode? n with
    | some p => primitiveNode p
    | none => Action.fail .invalid

/-- Reads how many items follow. Each takes a byte at least, so there are no more than bytes. -/
def count : Action State Nat := do
  let n ← read Reader.unsigned
  if (← get).reader.remaining < n then Action.fail .truncated
  return n

/-- Reads `count` fields whose numbers increase, from above `last` on. -/
def fields (slots : Array TypeId) : (count : Nat) → (last : Option UInt32) → Action State (List Field)
  | 0, _ => pure []
  | count + 1, last => do
    let n ← read Reader.unsigned
    if 2 ^ 32 ≤ n then Action.fail .invalid
    let id := UInt32.ofNat n
    if last.any (id ≤ ·) then Action.fail .invalid
    let type ← reference slots
    return ⟨.bare id, type⟩ :: (← fields slots count (some id))

/-- Reads `count` methods whose names increase, from above `last` on. -/
def methods (slots : Array TypeId) : (count : Nat) → (last : Option String) → Action State (List Method)
  | 0, _ => pure []
  | count + 1, last => do
    let name ← read Reader.text
    if last.any (name ≤ ·) then Action.fail .invalid
    let type ← reference slots
    return ⟨name, type⟩ :: (← methods slots count (some name))

/-- Reads a list of types. -/
def typeList (slots : Array TypeId) : Action State (List TypeId) := do
  Action.replicate (← count) (reference slots)

/-- Reads one mode. -/
def mode : Action State Mode := do
  match Mode.ofWire? (← read Reader.unsigned) with
  | some mode => return mode
  | none => Action.fail .invalid

/-- Reads a function type. -/
def signature (slots : Array TypeId) : Action State Signature := do
  let args ← typeList slots
  let results ← typeList slots
  let modes ← read Reader.unsigned
  if 1 < modes then Action.fail .invalid
  return ⟨args, results, ← Action.replicate modes mode⟩

/-- Reads the node of a table entry. A number below all that are known is a type of the future: its
    length follows, and it is taken for `reserved`. -/
def node (slots : Array TypeId) : Action State TypeNode := do
  let n ← read Reader.signed
  match Kind.all.find? (·.opcode = n) with
  | some .opt => return .opt (← reference slots)
  | some .vec => return .vec (← reference slots)
  | some .record => return .record (← fields slots (← count) none)
  | some .variant => return .variant (← fields slots (← count) none)
  | some .func => return .func (← signature slots)
  | some .service => return .service (← methods slots (← count) none)
  | some .var | some (.primitive _) => Action.fail .invalid
  | none =>
    if n < Primitive.principal.opcode then
      read do Reader.skip (← Reader.unsigned)
      return .primitive .reserved
    else Action.fail .invalid

/-- Reads a table entry, and puts its node into the store after all that it refers to. -/
def entry (slots : Array TypeId) : Action State TypeId := do
  let node ← node slots
  put (Store.putType node)

/-- Puts the names of the slots from `first` on into the store. -/
def putSlots (first : Nat) : (count : Nat) → Action State (List TypeId)
  | 0 => pure []
  | count + 1 => do
    let slot ← put (Store.putType (.var (slotName first)))
    return slot :: (← putSlots (first + 1) count)

/-- Reads what follows the magic bytes. -/
def body : Action State Header := do
  let length ← count
  let slots := (← putSlots 0 length).toArray
  let table ← Action.replicate length (entry slots)
  let args ← typeList slots
  return ⟨table, args, ⟨table.mapIdx fun i type => (slotName i, type)⟩⟩

/-- Reads the header at the front of a message: what it says, and how many bytes it takes. -/
def parse (bytes : List UInt8) : Action Store (Header × Nat) := fun store =>
  if bytes.length < magic.length then .error .truncated store
  else if bytes.take magic.length ≠ magic then .error .invalid store
  else
    match body ⟨.ofBytes bytes magic.length, store, []⟩ with
    | .ok header s => .ok (header, s.reader.offset) s.store
    | .error e s => .error e s.store

end Header

end TypedWire
