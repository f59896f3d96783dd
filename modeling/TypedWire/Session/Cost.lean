import TypedWire.Number.Power

/-! What reading and skipping cost, in units. A total is counted up to 64 bits, and may be held
    against a quota. -/

namespace TypedWire.Cost

/-- The most that is counted. -/
def most : Nat := 2 ^ 64 - 1

/-- A total with `n` units more. -/
def add (total n : Nat) : Nat := min (total + n) most

/-- Whether a total passes a quota. A quota of zero means that there is no limit. -/
def exceeds (quota total : Nat) : Bool := 0 < quota && quota < total

end TypedWire.Cost
