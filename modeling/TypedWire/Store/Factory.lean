import TypedWire.Number.Leb128
import TypedWire.Store

/-! Building types and values node by node. The factories put fields and methods into canonical
    order, and refuse what no message can hold. -/

namespace TypedWire.Store

/-! ### Types -/

/-- A type without parts. -/
def putPrimitive (p : Primitive) : Action Store TypeId := putType (.primitive p)

/-- A record type, its fields in the order of their numbers. -/
def putRecordType (fields : List Field) : Action Store TypeId :=
  match inLabelOrder? Field.label fields with
  | some fields => putType (.record fields)
  | none => Action.fail .invalid

/-- A variant type, its fields in the order of their numbers. -/
def putVariantType (fields : List Field) : Action Store TypeId :=
  match inLabelOrder? Field.label fields with
  | some fields => putType (.variant fields)
  | none => Action.fail .invalid

/-- A record type whose fields are numbered from zero. -/
def putTupleType (types : List TypeId) : Action Store TypeId :=
  putType (.record (types.mapIdx fun i t => ⟨.bare (.ofNat i), t⟩))

/-- A function type, with one mode at most. -/
def putFuncType (signature : Signature) : Action Store TypeId :=
  if 1 < signature.modes.length then Action.fail .invalid else putType (.func signature)

/-- A service type, its methods in the order of their names. -/
def putServiceType (methods : List Method) : Action Store TypeId :=
  match inNameOrder? methods with
  | some methods => putType (.service methods)
  | none => Action.fail .invalid

/-! ### Values -/

/-- A text. -/
def putText (text : String) : Action Store ValueId := do
  putValue (.text (← putBytes (utf8 text)))

/-- A byte string. -/
def putBlob (bytes : List UInt8) : Action Store ValueId := do
  putValue (.blob (← putBytes bytes))

/-- A principal, or a payload like one, if it is not too long. -/
def putPrincipalBytes (bytes : List UInt8) : Action Store Span :=
  if maxPrincipal < bytes.length then Action.fail .invalid else putBytes bytes

/-- A principal. -/
def putPrincipal (bytes : List UInt8) : Action Store ValueId := do
  putValue (.principal (← putPrincipalBytes bytes))

/-- A reference to a service. -/
def putService (principal : List UInt8) : Action Store ValueId := do
  putValue (.service (← putPrincipalBytes principal))

/-- A reference to a function of a service. -/
def putFunc (principal : List UInt8) (method : String) : Action Store ValueId := do
  let service ← putPrincipalBytes principal
  putValue (.func service (← putBytes (utf8 method)))

/-- The bytes of exactly one number. -/
def putNumber (bytes : List UInt8) : Action Store Span := do
  let length ← Action.ofExcept (Leb128.readLength bytes)
  if length ≠ bytes.length then Action.fail .invalid
  putBytes bytes

/-- A natural number, as its bytes. -/
def putNat (number : List UInt8) : Action Store ValueId := do
  putValue (.nat (← putNumber number))

/-- An integer, as its bytes. -/
def putInt (number : List UInt8) : Action Store ValueId := do
  putValue (.int (← putNumber number))

/-- A record, its fields in the order of their numbers. -/
def putRecord (fields : List FieldValue) : Action Store ValueId :=
  match inLabelOrder? FieldValue.label fields with
  | some fields => putValue (.record fields)
  | none => Action.fail .invalid

/-- A record whose fields are numbered from zero. -/
def putTuple (items : List ValueId) : Action Store ValueId :=
  putValue (.record (items.mapIdx fun i v => ⟨.bare (.ofNat i), v⟩))

end TypedWire.Store
