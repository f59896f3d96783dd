import TypedWire.Number.Power

/-! The shortest decimal that reads back as a given binary fraction. A finite number of a binary
    format is `m * 2 ^ q`; the decimals that read back as it are those in an interval around it,
    which ends half-way to its neighbours. Powers of ten are tried from large to small: the first
    one that has a multiple in the interval gives the fewest digits. -/

namespace TypedWire.Shortest

/-- A binary format: how many bits its fraction and its exponent have. -/
structure Format where
  fraction : Nat
  exponent : Nat

/-- The format of 32 bits. -/
def single : Format := ⟨23, 8⟩

/-- The format of 64 bits. -/
def double : Format := ⟨52, 11⟩

/-- What the bits of a number stand for. -/
inductive Class where
  | nan
  | infinite (negative : Bool)
  | zero (negative : Bool)
  /-- The number `m * 2 ^ q`; at a `boundary` the neighbour below is only half as far away. -/
  | finite (negative : Bool) (m : Nat) (q : Int) (boundary : Bool)
  deriving DecidableEq, Repr

/-- Takes the bits of a number apart. -/
def classify (format : Format) (bits : Nat) : Class :=
  let f := bits % 2 ^ format.fraction
  let e := bits / 2 ^ format.fraction % 2 ^ format.exponent
  let negative := bits / 2 ^ (format.fraction + format.exponent) % 2 = 1
  let lowest : Int := 2 - 2 ^ (format.exponent - 1) - format.fraction
  if e = 2 ^ format.exponent - 1 then if f = 0 then .infinite negative else .nan
  else if e = 0 then if f = 0 then .zero negative else .finite negative f lowest false
  else .finite negative (2 ^ format.fraction + f) (lowest + (e - 1)) (f = 0 ∧ 1 < e)

/-- A positive number and the ends of its interval, all over one denominator. -/
structure Interval where
  low : Nat
  value : Nat
  high : Nat
  denominator : Nat
  /-- Whether the ends themselves read back as the number. -/
  closed : Bool

/-- The interval of `m * 2 ^ q`. Half-way cases read back as the neighbour whose `m` is even. -/
def interval (m : Nat) (q : Int) (boundary : Bool) : Interval :=
  let scale := 2 ^ (q - 2).toNat
  { low := (4 * m - if boundary then 1 else 2) * scale
    value := 4 * m * scale
    high := (4 * m + 2) * scale
    denominator := 2 ^ (2 - q).toNat
    closed := m % 2 = 0 }

namespace Interval

/-- Whether `c * unit` lies in the interval. -/
def admits (i : Interval) (c unit : Nat) : Bool :=
  let x := c * unit
  (i.low < x && x < i.high) || (i.closed && (x = i.low || x = i.high))

/-- The multiple of `unit` in the interval that is nearest to the value, as a factor of `unit`. Of
    two that are equally near it is the larger. -/
def nearest? (i : Interval) (unit : Nat) : Option Nat :=
  let c := i.value / unit
  match i.admits c unit, i.admits (c + 1) unit with
  | true, true => if 2 * (i.value % unit) < unit then some c else some (c + 1)
  | true, false => some c
  | false, true => some (c + 1)
  | false, false => none

/-- The interval magnified by `factor`. -/
def magnify (i : Interval) (factor : Nat) : Interval :=
  { i with low := i.low * factor, value := i.value * factor, high := i.high * factor }

/-- The nearest multiple of `10 ^ k` in the interval, as a factor of `10 ^ k`. -/
def nearestPower? (i : Interval) (k : Int) : Option Nat :=
  (i.magnify (10 ^ (-k).toNat)).nearest? (i.denominator * 10 ^ k.toNat)

/-- The first hit among the powers `10 ^ k`, `10 ^ (k - 1)` and so on, `tries` of them: digits, and
    the power of ten that they are to be multiplied by. -/
def search (i : Interval) : (tries : Nat) → (k : Int) → Nat × Int
  | 0, k => (i.value * 10 ^ (-k).toNat / i.denominator, k)
  | tries + 1, k =>
    match i.nearestPower? k with
    | some digits => (digits, k)
    | none => i.search tries (k - 1)

end Interval

/-- The shortest decimal for `m * 2 ^ q`: digits, and the power of ten that they are to be multiplied
    by. The search begins above the number, and ends at the latest where the number itself is a
    multiple. -/
def decimal (m : Nat) (q : Int) (boundary : Bool) : Nat × Int :=
  let i := interval m q boundary
  let above := (toString (i.value / i.denominator)).length
  i.search (above + (2 - q).toNat + 1) above

/-- A decimal written without an exponent: digits, zeros and a point as needed. -/
def positional (digits : Nat) (k : Int) : String :=
  let text := toString digits
  if 0 ≤ k then text.pushn '0' k.toNat
  else
    let places := (-k).toNat
    let padded := ("".pushn '0' (places + 1 - text.length)) ++ text
    (padded.take (padded.length - places)).toString ++ "." ++ (padded.drop (padded.length - places)).toString

/-- The text of a number, from its bits. -/
def text (format : Format) (bits : Nat) : String :=
  let sign (negative : Bool) := if negative then "-" else ""
  match classify format bits with
  | .nan => "NaN"
  | .infinite negative => sign negative ++ "inf"
  | .zero negative => sign negative ++ "0"
  | .finite negative m q boundary =>
    let (digits, k) := decimal m q boundary
    sign negative ++ positional digits k

end TypedWire.Shortest
