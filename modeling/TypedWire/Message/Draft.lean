import TypedWire.Message.Header
import TypedWire.Text.Hex
import TypedWire.Message.TypeTable
import TypedWire.Value.Write

/-! Putting a message together, argument by argument. An argument is added as a whole or not at
    all. -/

namespace TypedWire

/-- The header of a message whose types are in `table`. -/
def Header.encode (table : TypeTable) (store : Store) (env : Env) : Except Fault (List UInt8) := do
  return Header.magic ++ (← table.encode store env)

/-- A message so far. -/
structure Draft where
  /-- The names that the types of arguments may use. -/
  env : Env := {}
  table : TypeTable := {}
  values : Output := #[]
  /-- The node of each type without parts that has been used by itself. -/
  shared : List (Primitive × TypeId) := []

namespace Draft

/-- A message and the store that its types and values lie in. -/
structure State where
  draft : Draft
  store : Store

/-- How many arguments there are. -/
def size (d : Draft) : Nat := d.table.args.size

/-- Puts something into the store. -/
def put {α : Type} (action : Action Store α) : Action State α := fun ⟨draft, store⟩ =>
  match action store with
  | .ok a store => .ok a ⟨draft, store⟩
  | .error e store => .error e ⟨draft, store⟩

/-- Adds the type of an argument. -/
def addType (type : TypeId) : Action State Unit := fun ⟨draft, store⟩ =>
  match TypeTable.addArg store draft.env type draft.table with
  | .ok _ table => .ok () ⟨{ draft with table }, store⟩
  | .error e table => .error e ⟨{ draft with table }, store⟩

/-- Writes the value of an argument. -/
def write (action : Store → Action Output Unit) : Action State Unit := fun ⟨draft, store⟩ =>
  match action store draft.values with
  | .ok _ values => .ok () ⟨{ draft with values }, store⟩
  | .error e values => .error e ⟨{ draft with values }, store⟩

/-- Adds a whole argument, or takes back what has been added of it. -/
def wholly (action : Action State Unit) : Action State Unit := fun s =>
  let mark := s.draft.table.mark
  let size := s.draft.values.size
  match action s with
  | .ok _ s => .ok () s
  | .error e s =>
    let draft := { s.draft with
      table := s.draft.table.restore mark
      values := s.draft.values.take size }
    .error e { s with draft }

/-- Adds an argument. That the value is of the type is up to the caller. -/
def add (type : TypeId) (value : ValueId) : Action State Unit :=
  wholly do
    addType type
    write fun store => Output.value store value

/-- The one node of a type without parts, made when it is first used. -/
def primitiveNode (p : Primitive) : Action State TypeId := do
  match (← get).draft.shared.lookup p with
  | some type => return type
  | none =>
    let type ← put (Store.putType (.primitive p))
    modify fun s => { s with draft := { s.draft with shared := (p, type) :: s.draft.shared } }
    return type

/-- Adds an argument of a type without parts, whose value is written by `content`. -/
def addPrimitive (p : Primitive) (content : Action Output Unit) : Action State Unit :=
  wholly do
    addType (← primitiveNode p)
    write fun _ => content

/-- Adds a byte string. Its type is made anew. -/
def addBlob (bytes : List UInt8) : Action State Unit := do
  let element ← put (Store.putType (.primitive (.fixed .nat8)))
  let type ← put (Store.putType (.vec element))
  wholly do
    addType type
    write fun _ => Output.blob bytes

/-- The whole message: the header, then the values. -/
def encode (d : Draft) (store : Store) : Except Fault (List UInt8) := do
  return (← Header.encode d.table store d.env) ++ d.values.toList

/-- The whole message in hexadecimal. -/
def encodeHex (d : Draft) (store : Store) : Except Fault String := Hex.encode <$> d.encode store

end Draft

end TypedWire
