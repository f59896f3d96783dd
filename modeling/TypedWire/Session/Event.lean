import TypedWire.Fault
import TypedWire.Schema.Node

/-! What a session tells its observer, if it is asked to. -/

namespace TypedWire

/-- One thing that happened. -/
inductive Event where
  /-- The argument with this number and type begins at this offset. -/
  | argStart (index : Nat) (type : TypeId) (offset : Nat)
  /-- The argument with this number ends at this offset, read or given up. -/
  | argEnd (index : Nat) (offset : Nat) (fault : Option Fault)
  /-- A type was accepted at an `opt` that it does not fit. -/
  | optSpecial (type expected : TypeId)
  /-- A cost was charged, which makes this total. -/
  | cost (added total : Nat)
  deriving DecidableEq, Repr

/-- What an observer asks for. -/
structure Topics where
  decode : Bool := false
  subtype : Bool := false
  quota : Bool := false
  deriving DecidableEq, Repr

/-- Whether an event belongs to what was asked for. -/
def Topics.cover (topics : Topics) : Event → Bool
  | .argStart .. | .argEnd .. => topics.decode
  | .optSpecial .. => topics.subtype
  | .cost .. => topics.quota

/-- Adds an event to a log, if it was asked for. -/
def Topics.note (topics : Topics) (log : Array Event) (event : Event) : Array Event :=
  if topics.cover event then log.push event else log

/-- The observer that prints warnings asks for the events that give rise to one. -/
def Topics.warnings : Topics := { subtype := true }

/-- The line that warns of an event, with the types involved if `full`. -/
def Event.warning? (full : Bool) : Event → Option String
  | .optSpecial type expected =>
    let detail :=
      if full then s!" (wire #{type.index}, expected #{expected.index})" else ""
    some ("WARNING: subtype coercion via special opt rule" ++ detail ++ "\n")
  | _ => none

end TypedWire
