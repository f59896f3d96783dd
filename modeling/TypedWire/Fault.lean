/-! The causes for which an operation on messages gives up, and the text of each. -/

namespace TypedWire

/-- Why an operation gave up. -/
inductive Fault where
  /-- A number leaves its range, or a quota or nesting budget is spent. -/
  | overflow
  /-- The bytes end inside what is being read. -/
  | truncated
  /-- The store has no room left. -/
  | storeFull
  /-- The input breaks a rule of the format or of the operation. -/
  | invalid
  /-- The input is well formed but asks for a feature that is not provided. -/
  | unsupported
  deriving DecidableEq, Repr

/-- The text shown to a user. -/
def Fault.message : Fault → String
  | .overflow => "numeric overflow or quota exceeded"
  | .truncated => "unexpected end of input"
  | .storeFull => "allocation failed"
  | .invalid => "invalid argument"
  | .unsupported => "unsupported construct"

/-- Whether two lists have the same length, and `test` holds of the members at each place. The first
    pair that fails ends the comparison. -/
def allPairs {α β : Type} (test : α → β → Except Fault Bool) (xs : List α) (ys : List β) :
    Except Fault Bool :=
  if xs.length = ys.length then (xs.zip ys).allM fun (x, y) => test x y else .ok false

/-- A computation that may give up; what it did to the state until then stays done. -/
abbrev Action (σ α : Type) := EStateM Fault σ α

namespace Action

variable {σ α : Type}

/-- Ends the computation with `fault`. -/
def fail (fault : Fault) : Action σ α := fun s => .error fault s

/-- An answer that needs no state. -/
def ofExcept : Except Fault α → Action σ α
  | .ok a => fun s => .ok a s
  | .error e => fun s => .error e s

/-- The outcome of a computation and the state it leaves, whether it gave up or not. -/
def outcome (action : Action σ α) (s : σ) : Except Fault α × σ :=
  match action s with
  | .ok a s => (.ok a, s)
  | .error e s => (.error e, s)

/-- The results of `count` runs of `step`, the latest first, put in front of `done`. -/
def collect (step : Action σ α) : Nat → List α → Action σ (List α)
  | 0, done => pure done
  | count + 1, done => do
    let a ← step
    collect step count (a :: done)

/-- The results of `count` runs of `step`, in order. -/
def replicate (count : Nat) (step : Action σ α) : Action σ (List α) := do
  return (← collect step count []).reverse

/-- Runs `step` as many times as `count` says. -/
def iterate (step : Action σ Unit) : Nat → Action σ Unit
  | 0 => pure ()
  | count + 1 => do
    step
    iterate step count

end Action

end TypedWire
