import TypedWire.Schema.Primitive
import TypedWire.Schema.Label

/-! Type nodes. A node names its parts by handles into a store, so types may share parts and may be
    cyclic. -/

namespace TypedWire

/-- The handle of a type node: its allocation number in a store. -/
structure TypeId where
  index : Nat
  deriving DecidableEq, Repr

/-- What a function promises about its effects. -/
inductive Mode where
  | query | oneway | compositeQuery
  deriving DecidableEq, Repr

namespace Mode

/-- The number of the mode in a message. -/
def wire : Mode → Nat
  | .query => 1
  | .oneway => 2
  | .compositeQuery => 3

/-- The mode that a number in a message stands for. -/
def ofWire? : Nat → Option Mode
  | 1 => some .query
  | 2 => some .oneway
  | 3 => some .compositeQuery
  | _ => none

/-- The keyword of the mode. -/
def keyword : Mode → String
  | .query => "query"
  | .oneway => "oneway"
  | .compositeQuery => "composite_query"

end Mode

/-- A field of a record or variant type. -/
structure Field where
  label : Label
  type : TypeId
  deriving DecidableEq, Repr

/-- A method of a service type. -/
structure Method where
  name : String
  type : TypeId
  deriving DecidableEq, Repr

/-- What a function takes and gives back. -/
structure Signature where
  args : List TypeId
  results : List TypeId
  modes : List Mode
  deriving DecidableEq, Repr

/-- One node of a type. -/
inductive TypeNode where
  | primitive (p : Primitive)
  | opt (inner : TypeId)
  | vec (element : TypeId)
  | record (fields : List Field)
  | variant (fields : List Field)
  | func (signature : Signature)
  | service (methods : List Method)
  /-- A name that stands for the type it is bound to. -/
  | var (name : String)
  deriving DecidableEq, Repr

namespace TypeNode

/-- The sort of a node. -/
def kind : TypeNode → Kind
  | .primitive p => .primitive p
  | .opt _ => .opt
  | .vec _ => .vec
  | .record _ => .record
  | .variant _ => .variant
  | .func _ => .func
  | .service _ => .service
  | .var _ => .var

/-- The fields of a record or variant type. -/
def fields? : TypeNode → Option (List Field)
  | .record fields | .variant fields => some fields
  | _ => none

end TypeNode

/-! ### Canonical order -/

/-- No two neighbours have the same key. -/
def distinctNeighbours {α κ : Type} [DecidableEq κ] (key : α → κ) : List α → Bool
  | [] | [_] => true
  | x :: y :: rest => key x ≠ key y && distinctNeighbours key (y :: rest)

/-- The items in the order of their labels' numbers; none if two items have the same number. -/
def inLabelOrder? {α : Type} (label : α → Label) (items : List α) : Option (List α) :=
  let sorted := items.mergeSort fun x y => (label x).id ≤ (label y).id
  if distinctNeighbours (fun x => (label x).id) sorted then some sorted else none

/-- The methods in the order of their names; none if two methods have the same name. -/
def inNameOrder? (methods : List Method) : Option (List Method) :=
  let sorted := methods.mergeSort fun x y => x.name ≤ y.name
  if distinctNeighbours Method.name sorted then some sorted else none

end TypedWire
