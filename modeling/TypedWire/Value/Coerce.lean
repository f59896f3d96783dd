import TypedWire.Number.Leb128
import TypedWire.Store.Factory
import TypedWire.Schema.Subtype

/-! Reshaping a value to an expected type. The value is left as it is; what has another shape is put
    into the store anew. -/

namespace TypedWire

namespace Coerce

/-- The answer of a look-up in the store. -/
def look {α : Type} (f : Store → Except Fault α) : Action Store α := fun s =>
  match f s with
  | .ok a => .ok a s
  | .error e => .error e s

/-- A value that may be left out: none if its shape does not match. -/
def orNone (coerced : Action Store ValueId) : Action Store (Option ValueId) := fun s =>
  match coerced s with
  | .ok v s => .ok (some v) s
  | .error .invalid s => .ok none s
  | .error e s => .error e s

/-- What stands for a field that is not there. -/
def missing (env : Env) (type : TypeId) : Action Store ValueId := do
  match ← look fun s => env.resolve s type with
  | .opt _ => Store.putValue (.opt none)
  | .primitive .null => Store.putValue .null
  | .primitive .reserved => Store.putValue .reserved
  | _ => Action.fail .invalid

/-- Widens a natural number to an integer. -/
def widen (value : ValueId) : Action Store ValueId := do
  match ← look (·.valueAt value) with
  | .nat span =>
    let bytes ← look (·.bytesAt span)
    Store.putInt (← Action.ofExcept (Leb128.widen bytes))
  | _ => Action.fail .invalid

/-- The items of a `vec`: those of a byte string are put into the store one by one. -/
def items : Value → Action Store (List ValueId)
  | .blob span => do
    let bytes ← look (·.bytesAt span)
    bytes.mapM fun b => Store.putValue (.fixed (.ofByte b))
  | .vec items => pure items
  | _ => Action.fail .invalid

/-- Reshapes a `vec`, item by item; a byte string stays what it is where one is expected. -/
def vec (env : Env) (coerce : ValueId → TypeId → TypeId → Action Store ValueId)
    (value : ValueId) (wire expected : TypeId) : Action Store ValueId := do
  let node ← look (·.valueAt value)
  if let .blob _ := node then
    if (← look fun s => env.resolve s expected) = .primitive (.fixed .nat8) then return value
  let items ← items node
  let items ← items.mapM fun item => coerce item wire expected
  Store.putValue (.vec items)

/-- Reshapes a record: each field expected, in the order expected. -/
def record (env : Env) (coerce : ValueId → TypeId → TypeId → Action Store ValueId)
    (value : ValueId) (wire expected : List Field) : Action Store ValueId := do
  match ← look (·.valueAt value) with
  | .record fields =>
    let fields ← expected.mapM fun want => do
      let item ←
        match fields.find? (·.label.id = want.label.id), wire.find? (·.label.id = want.label.id) with
        | some field, some type => coerce field.value type.type want.type
        | _, _ => missing env want.type
      return ⟨want.label, item⟩
    Store.putValue (.record fields)
  | _ => Action.fail .invalid

/-- Reshapes a variant: its active field, at the place expected. -/
def variant (coerce : ValueId → TypeId → TypeId → Action Store ValueId)
    (value : ValueId) (wire expected : List Field) : Action Store ValueId := do
  match ← look (·.valueAt value) with
  | .variant _ field =>
    match wire.find? (·.label.id = field.label.id),
        expected.findIdx? (·.label.id = field.label.id),
        expected.find? (·.label.id = field.label.id) with
    | some type, some index, some want =>
      let item ← coerce field.value type.type want.type
      Store.putValue (.variant index ⟨want.label, item⟩)
    | _, _, _ => Action.fail .invalid
  | _ => Action.fail .invalid

/-- Reshapes a value to an `opt` of `inner`. What does not fit is left out. -/
def opt (env : Env) (coerce : ValueId → TypeId → TypeId → Action Store ValueId)
    (value : ValueId) (wire : TypeId) (node : TypeNode) (inner : TypeId) : Action Store ValueId := do
  match node with
  | .primitive .null => Store.putValue (.opt none)
  | .opt wireInner =>
    match ← look (·.valueAt value) with
    | .opt none => Store.putValue (.opt none)
    | .opt (some v) => Store.putValue (.opt (← orNone (coerce v wireInner inner)))
    | _ => Action.fail .invalid
  | _ =>
    if ← look fun s => pure (env.isOptional s inner) then Store.putValue (.opt none)
    else Store.putValue (.opt (← orNone (coerce value wire inner)))

/-- Reshapes a value from the type `w`, whose node is `wire`, to a type whose node is `expected`;
    neither is a name. -/
def nodes (env : Env) (coerce : ValueId → TypeId → TypeId → Action Store ValueId)
    (value : ValueId) (w : TypeId) (wire expected : TypeNode) : Action Store ValueId :=
  match wire, expected with
  | _, .primitive .reserved => Store.putValue .reserved
  | .primitive .nat, .primitive .int => widen value
  | .primitive p, .primitive q => if p = q then pure value else Action.fail .invalid
  | _, .opt inner => opt env coerce value w wire inner
  | .vec w, .vec e => vec env coerce value w e
  | .record w, .record e => record env coerce value w e
  | .variant w, .variant e => variant coerce value w e
  | .func _, .func _ | .service _, .service _ => pure value
  | _, _ => Action.fail .invalid

/-- Reshapes a value, with at most `depth` steps one inside the other. -/
def within (env : Env) : (depth : Nat) → ValueId → TypeId → TypeId → Action Store ValueId
  | 0, _, _, _ => Action.fail .overflow
  | depth + 1, value, wire, expected => do
    if wire = expected then return value
    let w ← look fun s => env.follow s wire
    let e ← look fun s => env.follow s expected
    if w = e then return value
    let wireNode ← look (·.typeAt w)
    let expectedNode ← look (·.typeAt e)
    nodes env (within env depth) value w wireNode expectedNode

/-- More steps than lie one inside the other in a reshaping that comes to an end, where the parts of
    all nodes are in the store. A step is known by its value and its two types. One that meets itself
    again, as it may in a cyclic value, ends only when the store is full; each round puts a value
    in. -/
def steps (s : Store) : Nat :=
  let values := s.values.size + s.limit.getD 0 / Store.valueCharge + 2
  2 * values ^ 2 * (s.types.size + 1) ^ 2

end Coerce

/-- Reshapes a value from the type `wire` to the type `expected`. -/
def coerce (env : Env) (value : ValueId) (wire expected : TypeId) : Action Store ValueId := fun s =>
  Coerce.within env (Coerce.steps s) value wire expected s

end TypedWire
