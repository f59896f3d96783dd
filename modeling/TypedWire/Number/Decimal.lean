import TypedWire.Number.Power

/-! Numbers of any width in decimal. The groups of a number are gathered into limbs of 32 bits, the lowest
    first, and the limbs are divided by a thousand million again and again, which gives nine digits each
    time. What is done to a limb is done in 64 bits, and what passes 32 bits is carried to the next. -/

namespace TypedWire.Decimal

/-! ### Limbs -/

/-- The number that limbs spell. -/
def value : List UInt32 → Nat
  | [] => 0
  | limb :: limbs => limb.toNat + 2 ^ 32 * value limbs

/-- Moves limbs up by seven bits, and puts `carry` below them. -/
def shiftIn (carry : UInt64) : List UInt32 → List UInt32
  | [] => if carry = 0 then [] else [carry.toUInt32]
  | limb :: limbs =>
    let x := limb.toUInt64 <<< 7 ||| carry
    x.toUInt32 :: shiftIn (x >>> 32) limbs

/-- The limbs of groups of seven bits, the lowest first. -/
def ofGroups (groups : List UInt8) : List UInt32 :=
  groups.foldr (fun group limbs => shiftIn group.toUInt64 limbs) []

/-- Adds `carry` to limbs. -/
def addSmall (carry : UInt64) : List UInt32 → List UInt32
  | [] => if carry = 0 then [] else [carry.toUInt32]
  | limb :: limbs =>
    if carry = 0 then limb :: limbs
    else
      let x := limb.toUInt64 + carry
      x.toUInt32 :: addSmall (x >>> 32) limbs

/-- Limbs without the zeros on top. -/
def trim : List UInt32 → List UInt32
  | [] => []
  | limb :: limbs =>
    match trim limbs with
    | [] => if limb = 0 then [] else [limb]
    | high => limb :: high

/-- Divides limbs by `d`, from the top down: a limb of the quotient for each, and the remainder. -/
def divide (d : UInt32) : List UInt32 → List UInt32 × UInt64
  | [] => ([], 0)
  | limb :: limbs =>
    let (quotient, remainder) := divide d limbs
    let x := remainder <<< 32 ||| limb.toUInt64
    ((x / d.toUInt64).toUInt32 :: quotient, x % d.toUInt64)

/-! ### What division leaves -/

theorem toNat_join {high low place : UInt64} {k : Nat} (hplace : place.toNat % 64 = k)
    (hlow : low.toNat < 2 ^ k) (hhigh : high.toNat * 2 ^ k < 2 ^ 64) :
    (high <<< place ||| low).toNat = high.toNat * 2 ^ k + low.toNat := by
  rw [UInt64.toNat_or, UInt64.toNat_shiftLeft, hplace, Nat.shiftLeft_eq, Nat.mod_eq_of_lt hhigh,
    ← Nat.shiftLeft_eq, ← Nat.shiftLeft_add_eq_or_of_lt hlow]

/-- The limbs are the quotient times the divisor, and the remainder. -/
theorem divide_spec {d : UInt32} (hd : 0 < d.toNat) : ∀ limbs : List UInt32,
    value limbs = d.toNat * value (divide d limbs).1 + (divide d limbs).2.toNat ∧
      (divide d limbs).2.toNat < d.toNat ∧ (divide d limbs).1.length = limbs.length
  | [] => ⟨rfl, hd, rfl⟩
  | limb :: limbs => by
    obtain ⟨hvalue, hlt, hlength⟩ := divide_spec hd limbs
    have hd32 := d.toNat_lt
    have hlimb := limb.toNat_lt
    simp only [divide, value, List.length_cons, hlength, and_true]
    generalize (divide d limbs).2 = remainder at hvalue hlt ⊢
    have hx : (remainder <<< 32 ||| limb.toUInt64).toNat = remainder.toNat * 2 ^ 32 + limb.toNat :=
      toNat_join rfl hlimb (by omega)
    generalize remainder <<< 32 ||| limb.toUInt64 = x at hx ⊢
    have hquotient : x.toNat / d.toNat < 2 ^ 32 := by
      rw [Nat.div_lt_iff_lt_mul hd]
      omega
    rw [UInt64.toNat_toUInt32, UInt64.toNat_div, UInt64.toNat_mod, UInt32.toNat_toUInt64,
      Nat.mod_eq_of_lt hquotient]
    have hdiv := Nat.div_add_mod x.toNat d.toNat
    refine ⟨?_, Nat.mod_lt _ hd⟩
    rw [hvalue, Nat.mul_add, Nat.mul_add, Nat.mul_left_comm]
    omega

theorem value_trim : ∀ limbs : List UInt32, value (trim limbs) = value limbs
  | [] => rfl
  | limb :: limbs => by
    have ih := value_trim limbs
    rw [trim, value]
    split
    · next h =>
      rw [h] at ih
      rw [← ih]
      split
      · next hzero => rw [hzero]; rfl
      · rfl
    · rw [value, ih]

theorem length_trim_le : ∀ limbs : List UInt32, (trim limbs).length ≤ limbs.length
  | [] => Nat.le_refl _
  | limb :: limbs => by
    have ih := length_trim_le limbs
    rw [trim]
    split
    · split <;> simp
    · simpa using ih

theorem trim_of_value_zero : ∀ {limbs : List UInt32}, value limbs = 0 → trim limbs = []
  | [], _ => rfl
  | limb :: limbs, h => by
    rw [value] at h
    have hlimb : limb = 0 := UInt32.toNat_inj.mp (by simp; omega)
    rw [trim, trim_of_value_zero (by omega), if_pos hlimb]

/-- Divides limbs by `d`: the quotient without zeros on top, and the remainder. -/
def divSmall (d : UInt32) (limbs : List UInt32) : List UInt32 × UInt32 :=
  let (quotient, remainder) := divide d limbs
  (trim quotient, remainder.toUInt32)

theorem divSmall_spec {d : UInt32} (hd : 0 < d.toNat) (limbs : List UInt32) :
    value limbs = d.toNat * value (divSmall d limbs).1 + (divSmall d limbs).2.toNat ∧
      (divSmall d limbs).2.toNat < d.toNat := by
  obtain ⟨hvalue, hlt, -⟩ := divide_spec hd limbs
  have hremainder : (divSmall d limbs).2.toNat = (divide d limbs).2.toNat := by
    rw [divSmall, UInt64.toNat_toUInt32, Nat.mod_eq_of_lt (Nat.lt_trans hlt d.toNat_lt)]
  rw [hremainder, divSmall, value_trim]
  exact ⟨hvalue, hlt⟩

/-- The quotient is smaller, or has fewer limbs. -/
theorem divSmall_shrinks {d : UInt32} (hd : 1 < d.toNat) {limbs : List UInt32} (hne : limbs ≠ []) :
    value (divSmall d limbs).1 + (divSmall d limbs).1.length < value limbs + limbs.length := by
  obtain ⟨hvalue, -, hlength⟩ := divide_spec (Nat.lt_trans Nat.zero_lt_one hd) limbs
  have hpos : 0 < limbs.length := List.length_pos_iff.mpr hne
  have hle := length_trim_le (divide d limbs).1
  rw [divSmall, value_trim]
  dsimp only
  by_cases hzero : value (divide d limbs).1 = 0
  · rw [trim_of_value_zero hzero, hzero, List.length_nil]
    omega
  · have hmul := Nat.mul_lt_mul_of_pos_right hd (Nat.pos_of_ne_zero hzero)
    omega

/-! ### Digits -/

/-- What nine digits can tell apart. -/
def chunkSize : UInt32 := 1000000000

/-- Limbs in chunks of nine digits, the lowest first. -/
def chunks (limbs : List UInt32) : List UInt32 :=
  if limbs = [] then []
  else
    match _ : divSmall chunkSize limbs with
    | (quotient, chunk) => chunk :: chunks quotient
termination_by value limbs + limbs.length
decreasing_by
  next hne hdivided =>
    have hshrinks := divSmall_shrinks (d := chunkSize) (by decide) hne
    rwa [hdivided] at hshrinks

/-- Nine digits. -/
def padded (chunk : UInt32) : List Char :=
  let digits := Nat.toDigits 10 chunk.toNat
  List.replicate (9 - digits.length) '0' ++ digits

/-- The digits of limbs: those of the highest chunk, then nine for each other. -/
def digits (limbs : List UInt32) : List Char :=
  match (chunks (trim limbs)).reverse with
  | [] => ['0']
  | first :: rest => Nat.toDigits 10 first.toNat ++ rest.flatMap padded

/-! ### Texts -/

/-- A natural number, from its bytes in LEB128. -/
def natural (bytes : List UInt8) : String :=
  String.ofList (digits (ofGroups (bytes.map (· &&& 0x7f))))

/-- An integer, from its bytes in signed LEB128. A negative one is the opposite of what its groups spell
    when they are inverted, and one more. -/
def integer (bytes : List UInt8) : String :=
  if bytes.getLast?.any (· &&& 0x40 ≠ 0) then
    String.ofList ('-' :: digits (addSmall 1 (ofGroups (bytes.map fun b => ~~~b &&& 0x7f))))
  else natural bytes

end TypedWire.Decimal
