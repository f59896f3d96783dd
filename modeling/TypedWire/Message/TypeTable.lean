import TypedWire.Number.Leb128
import TypedWire.Schema.Equal

/-! The type table of a message that is being written. Each type with parts takes one slot, which
    equal types share; a slot is taken before its parts are looked at, so a cyclic type refers back to
    its own slot. -/

namespace TypedWire

/-- The types that a message mentions so far. -/
structure TypeTable where
  /-- The slots that types have been found to take. -/
  slots : List (TypeId × Nat) := []
  /-- What is written for each slot; nothing as long as its parts are looked at. -/
  entries : Array (List UInt8) := #[]
  /-- The type that took each slot. -/
  registered : Array TypeId := #[]
  /-- The types of the arguments. -/
  args : Array TypeId := #[]

namespace TypeTable

/-- A state of a table to go back to. -/
structure Mark where
  entries : Nat
  args : Nat
  deriving DecidableEq, Repr

/-- How many slots are taken. -/
def size (t : TypeTable) : Nat := t.entries.size

/-- The state of the table. -/
def mark (t : TypeTable) : Mark := ⟨t.entries.size, t.args.size⟩

/-- Forgets the slots and arguments that came after a mark. -/
def restore (t : TypeTable) (mark : Mark) : TypeTable :=
  { slots := t.slots.filter (·.2 < mark.entries)
    entries := t.entries.take mark.entries
    registered := t.registered.take mark.entries
    args := t.args.take mark.args }

/-- The slot of a type that has been found to take one. -/
def slot? (t : TypeTable) (type : TypeId) : Option Nat := t.slots.lookup type

/-! ### Writing -/

/-- What stands for a type in a message: its number if it has no parts, else its slot. -/
def encodeRef (t : TypeTable) (store : Store) (env : Env) (type : TypeId) :
    Except Fault (List UInt8) := do
  match ← store.typeAt type with
  | .primitive p => return Leb128.encodeSigned p.opcode
  | node =>
    if let some slot := t.slot? type then return Leb128.encodeSigned slot
    unless node.kind = .var do throw .invalid
    let actual ← env.follow store type
    match ← store.typeAt actual with
    | .primitive p => return Leb128.encodeSigned p.opcode
    | _ =>
      match t.slot? actual with
      | some slot => return Leb128.encodeSigned slot
      | none => throw .invalid

/-- A list of types, after its length. -/
def encodeRefs (t : TypeTable) (store : Store) (env : Env) (types : List TypeId) :
    Except Fault (List UInt8) := do
  let refs ← types.mapM (t.encodeRef store env)
  return Leb128.encodeUnsigned types.length ++ refs.flatten

/-- A list of fields, after its length. -/
def encodeFields (t : TypeTable) (store : Store) (env : Env) (fields : List Field) :
    Except Fault (List UInt8) := do
  let items ← fields.mapM fun f =>
    return Leb128.encodeUnsigned f.label.id.toNat ++ (← t.encodeRef store env f.type)
  return Leb128.encodeUnsigned fields.length ++ items.flatten

/-- A list of methods, after its length. -/
def encodeMethods (t : TypeTable) (store : Store) (env : Env) (methods : List Method) :
    Except Fault (List UInt8) := do
  let items ← methods.mapM fun m => do
    let name := utf8 m.name
    return Leb128.encodeUnsigned name.length ++ name ++ (← t.encodeRef store env m.type)
  return Leb128.encodeUnsigned methods.length ++ items.flatten

/-- What is written for a slot. -/
def encodeNode (t : TypeTable) (store : Store) (env : Env) (node : TypeNode) :
    Except Fault (List UInt8) := do
  let content ← match node with
    | .opt inner => t.encodeRef store env inner
    | .vec element => t.encodeRef store env element
    | .record fields | .variant fields => t.encodeFields store env fields
    | .func f => do
      let args ← t.encodeRefs store env f.args
      let results ← t.encodeRefs store env f.results
      let modes := f.modes.map fun m => UInt8.ofNat m.wire
      pure (args ++ results ++ Leb128.encodeUnsigned modes.length ++ modes)
    | .service methods => t.encodeMethods store env methods
    | .primitive _ | .var _ => throw .invalid
  return Leb128.encodeSigned node.kind.opcode ++ content

/-- The table and the types of the arguments. -/
def encode (t : TypeTable) (store : Store) (env : Env) : Except Fault (List UInt8) := do
  let args ← t.encodeRefs store env t.args.toList
  return Leb128.encodeUnsigned t.size ++ t.entries.toList.flatten ++ args

/-! ### Building -/

/-- The parts of a node, in the order in which they are written. -/
def parts : TypeNode → List TypeId
  | .opt inner => [inner]
  | .vec element => [element]
  | .record fields | .variant fields => fields.map (·.type)
  | .func f => f.args ++ f.results
  | .service methods => methods.map (·.type)
  | .primitive _ | .var _ => []

/-- How many levels of two types are compared to find out whether they share a slot. -/
def sharedLevels : Nat := 33

/-- The first type that is equal to `type` in a list that begins at `place`, by its place. -/
def findEqual (store : Store) (env : Env) (type : TypeId) :
    (place : Nat) → List TypeId → Except Fault (Option Nat)
  | _, [] => .ok none
  | place, other :: rest => do
    if ← env.sameWithin store sharedLevels other type then return some place
    findEqual store env type (place + 1) rest

/-- Notes that types take a slot. -/
def assign (types : List TypeId) (slot : Nat) : Action TypeTable Unit :=
  modify fun t => { t with slots := types.map (·, slot) ++ t.slots }

/-- Takes a new slot. -/
def takeSlot (type : TypeId) : Action TypeTable Nat := fun t =>
  .ok t.entries.size { t with entries := t.entries.push [], registered := t.registered.push type }

/-- Makes sure that a type can be written, if no more than `depth` types with parts are met one
    inside the other: its number if it has no parts, else its slot. -/
def registerWithin (store : Store) (env : Env) : (depth : Nat) → TypeId → Action TypeTable Int
  | 0, _ => Action.fail .overflow
  | depth + 1, type => do
    if let some slot := (← get).slot? type then return slot
    let actual ← Action.ofExcept (env.follow store type)
    if let some slot := (← get).slot? actual then
      assign [type] slot
      return slot
    let node ← Action.ofExcept (store.typeAt actual)
    if let .primitive p := node then return p.opcode
    if let some slot ← Action.ofExcept (findEqual store env actual 0 (← get).registered.toList) then
      assign [type, actual] slot
      return slot
    let slot ← takeSlot actual
    assign [type, actual] slot
    (parts node).forM fun part => do
      let _ ← registerWithin store env depth part
    let entry ← Action.ofExcept ((← get).encodeNode store env node)
    modify fun t => { t with entries := t.entries.setIfInBounds slot entry }
    return slot

/-- Makes sure that a type can be written. Each type with parts that is met takes a slot, so no more
    of them are met one inside the other than there are types. -/
def register (store : Store) (env : Env) (type : TypeId) : Action TypeTable Int :=
  registerWithin store env (store.types.size + 1) type

/-- Adds an argument of a type. -/
def addArg (store : Store) (env : Env) (type : TypeId) : Action TypeTable Unit := do
  let _ ← register store env type
  modify fun t => { t with args := t.args.push type }

end TypeTable

end TypedWire
