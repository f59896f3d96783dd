import TypedWire.Session.Cost
import TypedWire.Schema.Env
import TypedWire.Reader

/-! Passing over a value without keeping it. What decoding would refuse is refused, and what decoding
    would charge is charged, against a quota of its own. -/

namespace TypedWire.Skip

/-- What skipping keeps. -/
structure State where
  reader : Reader
  spent : Nat

/-- What skipping works on. -/
structure Context where
  store : Store
  env : Env
  /-- The most that may be charged; zero means that there is no limit. -/
  quota : Nat := 0

/-- Reads on. -/
def read {α : Type} (action : Action Reader α) : Action State α := fun ⟨reader, spent⟩ =>
  match action reader with
  | .ok a reader => .ok a ⟨reader, spent⟩
  | .error e reader => .error e ⟨reader, spent⟩

/-- Where the reader is. -/
def offset : Action State Nat := fun s => .ok s.reader.offset s

/-- Charges `n` units. -/
def spend (cx : Context) (n : Nat) : Action State Unit := fun ⟨reader, spent⟩ =>
  let spent := Cost.add spent n
  if Cost.exceeds cx.quota spent then .error .overflow ⟨reader, spent⟩
  else .ok () ⟨reader, spent⟩

/-- Charges the bytes read since `start`. -/
def spendSince (cx : Context) (start : Nat) : Action State Unit := do
  spend cx ((← offset) - start)

/-- Passes over a value of a type without parts. -/
def primitive : Primitive → Action Reader Unit
  | .null | .reserved => pure ()
  | .empty => Action.fail .invalid
  | .bool => do
    if 1 < (← Reader.byte) then Action.fail .invalid
  | .fixed f => Reader.skip f.width
  | .nat | .int => do
    let _ ← Reader.number
  | .text => do
    let _ ← Reader.text
  | .principal => do
    let _ ← Reader.principal

/-- Passes over an `opt`. -/
def opt (cx : Context) (start : Nat) (content : Action State Unit) : Action State Unit := do
  match ← read Reader.byte with
  | 0 => spendSince cx start
  | 1 =>
    spendSince cx start
    content
  | _ => Action.fail .invalid

/-- Passes over a `vec`. -/
def vec (cx : Context) (start : Nat) (element : TypeId) (item : Action State Unit) :
    Action State Unit := do
  let count ← read Reader.unsigned
  spendSince cx start
  spend cx count
  if (← Action.ofExcept (cx.env.resolve cx.store element)) = .primitive (.fixed .nat8) then
    read (Reader.skip count)
  else Action.iterate item count

/-- Passes over a record, field by field. -/
def record (skip : TypeId → Action State Unit) (fields : List Field) : Action State Unit :=
  fields.forM fun field => skip field.type

/-- Passes over a variant. -/
def variant (cx : Context) (start : Nat) (skip : TypeId → Action State Unit)
    (fields : List Field) : Action State Unit := do
  let index ← read Reader.unsigned
  match fields[index]? with
  | some field =>
    spendSince cx start
    skip field.type
  | none => Action.fail .invalid

/-- Passes over a value whose nodes nest at most `depth` deep. -/
def value (cx : Context) : (depth : Nat) → TypeId → Action State Unit
  | 0, _ => Action.fail .overflow
  | depth + 1, type => do
    let node ← Action.ofExcept (cx.env.resolve cx.store type)
    let start ← offset
    match node with
    | .primitive p =>
      read (primitive p)
      spendSince cx start
    | .service _ =>
      let _ ← read Reader.service
      spendSince cx start
    | .func _ =>
      let _ ← read Reader.func
      spendSince cx start
    | .opt inner => opt cx start (value cx depth inner)
    | .vec element => vec cx start element (value cx depth element)
    | .record fields => record (value cx depth) fields
    | .variant fields => variant cx start (value cx depth) fields
    | .var _ => Action.fail .invalid

end TypedWire.Skip
