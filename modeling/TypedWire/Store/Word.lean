import TypedWire.Store

/-! The store on a machine. What has been charged is a word of 64 bits, and a handle has 32, as the numbers
    have that a span is made of. While a call runs, memory may refuse a block or a longer list, whatever it
    gave before, and it may give a block more bytes than were asked for. A call that meets one of these
    limits finds the store full, at the step that meets it: what was done before stays done. -/

namespace TypedWire.Store

/-- What memory does while a call runs. -/
structure Memory where
  /-- The bytes that a block is given beyond the capacity asked for; none if it cannot be had. -/
  spare : (capacity : Nat) → Option Nat
  /-- Whether a list of nodes can be made longer. -/
  longer : Bool

/-- Whether the limit allows `n` more to be charged. -/
def allows (s : Store) (n : Nat) : Bool := s.limit.all (s.charged + n ≤ ·)

/-- Whether `n` more can be charged, in a word. -/
def affords (s : Store) (n : Nat) : Bool := s.charged + n < 2 ^ 64 && s.allows n

/-- Charges `n`, in a word. -/
def chargeWord (n : Nat) : Action Store Unit := do
  require ((← get).charged + n < 2 ^ 64)
  charge n

namespace Memory

/-- The index of one more node in a list of `count` nodes. -/
def nextIndex (m : Memory) (count : Store → Nat) : Action Store Nat := do
  let index := count (← get)
  require (index < 2 ^ 32)
  require m.longer
  return index

/-- Puts a type node in. -/
def putType (m : Memory) (node : TypeNode) : Action Store TypeId := do
  chargeWord typeCharge
  let index ← m.nextIndex (·.types.size)
  fun s => .ok ⟨index⟩ { s with types := s.types.push node }

/-- Puts a value node in. -/
def putValue (m : Memory) (value : Value) : Action Store ValueId := do
  chargeWord valueCharge
  let index ← m.nextIndex (·.values.size)
  fun s => .ok ⟨index⟩ { s with values := s.values.push value }

/-- Puts a byte string in. The charge comes first, and stays if there is no place. -/
def putBytes (m : Memory) (bytes : List UInt8) : Action Store Span := do
  chargeWord bytes.length
  place m.spare bytes

end Memory

/-! ### Calls -/

/-- A call that puts something into the store. -/
inductive Call where
  | type (node : TypeNode)
  | value (node : Value)
  | bytes (content : List UInt8)

/-- What a call answers: where to find what it has put in. -/
inductive Place where
  | type (id : TypeId)
  | value (id : ValueId)
  | span (span : Span)
  deriving DecidableEq

namespace Call

/-- What is charged for a call. -/
def charge : Call → Nat
  | .type _ => typeCharge
  | .value _ => valueCharge
  | .bytes content => content.length

/-- The call. -/
def put : Call → Action Store Place
  | .type node => return .type (← putType node)
  | .value node => return .value (← putValue node)
  | .bytes content => return .span (← putBytes content)

/-- The call on a machine. -/
def putOn (m : Memory) : Call → Action Store Place
  | .type node => return .type (← m.putType node)
  | .value node => return .value (← m.putValue node)
  | .bytes content => return .span (← m.putBytes content)

end Call

/-! ### Calls one after another -/

/-- A call, what memory did, and the store before and after it. -/
structure Event where
  before : Store
  memory : Memory
  call : Call
  answer : Except Fault Place
  after : Store

/-- A call on a machine, as an event. -/
def event (s : Store) (memory : Memory) (call : Call) : Event where
  before := s
  memory
  call
  answer := ((call.putOn memory).outcome s).1
  after := ((call.putOn memory).outcome s).2

/-- The events of calls, each of which is made whether those before it ended well or not. -/
def events (s : Store) : List (Memory × Call) → List Event
  | [] => []
  | (m, call) :: calls => s.event m call :: events (s.event m call).after calls

/-- The store that calls leave. -/
def afterCalls (s : Store) (calls : List (Memory × Call)) : Store :=
  calls.foldl (fun s (m, call) => (s.event m call).after) s

namespace Event

/-- The call, if it ended well. -/
def kept? (e : Event) : Option Call :=
  match e.answer with
  | .ok _ => some e.call
  | .error _ => none

/-- The call, if it was charged and failed. -/
def lost? (e : Event) : Option Call :=
  match e.answer with
  | .ok _ => none
  | .error _ => if e.before.affords e.call.charge then some e.call else none

end Event

end TypedWire.Store
