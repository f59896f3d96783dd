import TypedWire.Schema.Env
import TypedWire.Session.Cost
import TypedWire.Session.Event
import TypedWire.Reader

/-! Decoding one value by its type. A value costs one unit for each byte that it takes, and a `vec`
    one for each item too, charged before any item is read. -/

namespace TypedWire.Decode

/-- What decoding works on. -/
structure Context where
  env : Env
  /-- The most that may be charged; zero means that there is no limit. -/
  quota : Nat := 0
  topics : Topics := {}

/-- What decoding keeps. -/
structure State where
  reader : Reader
  store : Store
  cost : Nat
  log : Array Event

/-- Reads on. -/
def read {α : Type} (action : Action Reader α) : Action State α := fun ⟨reader, store, cost, log⟩ =>
  match action reader with
  | .ok a reader => .ok a ⟨reader, store, cost, log⟩
  | .error e reader => .error e ⟨reader, store, cost, log⟩

/-- Puts something into the store. -/
def put {α : Type} (action : Action Store α) : Action State α := fun ⟨reader, store, cost, log⟩ =>
  match action store with
  | .ok a store => .ok a ⟨reader, store, cost, log⟩
  | .error e store => .error e ⟨reader, store, cost, log⟩

/-- The node that a type stands for. -/
def resolve (cx : Context) (type : TypeId) : Action State TypeNode := fun s =>
  match cx.env.resolve s.store type with
  | .ok node => .ok node s
  | .error e => .error e s

/-- Where the reader is. -/
def offset : Action State Nat := fun s => .ok s.reader.offset s

/-- Charges `n` units. -/
def spend (cx : Context) (n : Nat) : Action State Unit := fun ⟨reader, store, cost, log⟩ =>
  let cost := Cost.add cost n
  let log := cx.topics.note log (.cost n cost)
  if Cost.exceeds cx.quota cost then .error .overflow ⟨reader, store, cost, log⟩
  else .ok () ⟨reader, store, cost, log⟩

/-- Charges the bytes read since `start`. -/
def spendSince (cx : Context) (start : Nat) : Action State Unit := do
  spend cx ((← offset) - start)

/-- Charges the bytes read since `start`, and puts the value into the store. -/
def finish (cx : Context) (start : Nat) (value : Value) : Action State ValueId := do
  spendSince cx start
  put (Store.putValue value)

/-- Reads a value of a type without parts. -/
def primitive : Primitive → Action State Value
  | .null => pure .null
  | .reserved => pure .reserved
  | .empty => Action.fail .invalid
  | .bool => do
    match ← read Reader.byte with
    | 0 => return .bool false
    | 1 => return .bool true
    | _ => Action.fail .invalid
  | .fixed f => return .fixed (← read (Reader.fixed f))
  | .nat => do
    let number ← read Reader.number
    return .nat (← put (Store.putBytes number))
  | .int => do
    let number ← read Reader.number
    return .int (← put (Store.putBytes number))
  | .text => do
    let text ← read Reader.text
    return .text (← put (Store.putBytes (utf8 text)))
  | .principal => do
    let bytes ← read Reader.principal
    return .principal (← put (Store.putBytes bytes))

/-- Reads a reference to a service. -/
def service : Action State Value := do
  let principal ← read Reader.service
  return .service (← put (Store.putBytes principal))

/-- Reads a reference to a function. -/
def func : Action State Value := do
  let (principal, method) ← read Reader.func
  let principal ← put (Store.putBytes principal)
  return .func principal (← put (Store.putBytes (utf8 method)))

/-- Reads an `opt`, whose content, if there is any, is read by `content`. -/
def opt (cx : Context) (start : Nat) (content : Action State ValueId) : Action State ValueId := do
  match ← read Reader.byte with
  | 0 => finish cx start (.opt none)
  | 1 =>
    spendSince cx start
    let v ← content
    put (Store.putValue (.opt (some v)))
  | _ => Action.fail .invalid

/-- Reads a `vec`, each item by `item`; the items of a `vec nat8` are kept as a byte string. -/
def vec (cx : Context) (start : Nat) (element : TypeId) (item : Action State ValueId) :
    Action State ValueId := do
  let count ← read Reader.unsigned
  spendSince cx start
  spend cx count
  if (← resolve cx element) = .primitive (.fixed .nat8) then
    let bytes ← read (Reader.bytes count)
    let span ← put (Store.putBytes bytes)
    put (Store.putValue (.blob span))
  else
    let items ← Action.replicate count item
    put (Store.putValue (.vec items))

/-- Reads a record, field by field. -/
def record (decode : TypeId → Action State ValueId) (fields : List Field) :
    Action State ValueId := do
  let fields ← fields.mapM fun field => return ⟨field.label, ← decode field.type⟩
  put (Store.putValue (.record fields))

/-- Reads a variant: the place of its active field, and the field. -/
def variant (cx : Context) (start : Nat) (decode : TypeId → Action State ValueId)
    (fields : List Field) : Action State ValueId := do
  let index ← read Reader.unsigned
  spendSince cx start
  match fields[index]? with
  | some field =>
    let v ← decode field.type
    put (Store.putValue (.variant index ⟨field.label, v⟩))
  | none => Action.fail .invalid

/-- Reads a value whose nodes nest at most `depth` deep. -/
def value (cx : Context) : (depth : Nat) → TypeId → Action State ValueId
  | 0, _ => Action.fail .overflow
  | depth + 1, type => do
    let node ← resolve cx type
    let start ← offset
    match node with
    | .primitive p => finish cx start (← primitive p)
    | .service _ => finish cx start (← service)
    | .func _ => finish cx start (← func)
    | .opt inner => opt cx start (value cx depth inner)
    | .vec element => vec cx start element (value cx depth element)
    | .record fields => record (value cx depth) fields
    | .variant fields => variant cx start (value cx depth) fields
    | .var _ => Action.fail .invalid

end TypedWire.Decode
