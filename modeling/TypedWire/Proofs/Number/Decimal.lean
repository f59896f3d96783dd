import Mathlib.Data.List.Basic
import TypedWire.Number.Decimal
import TypedWire.Proofs.Number.Widen

/-! Numbers of any width in decimal are exact: the text is the one numeral of the number that the bytes
    denote, whatever its width and however it is padded. The limbs hold the number after each step, no
    step passes 64 bits, and the chunks are its digits to the base of a thousand million. -/

namespace TypedWire

/-- The text is the decimal numeral of `n`: digits that spell it, of which the first is zero only if it is
    alone. -/
structure Numeral (text : List Char) (n : Nat) : Prop where
  digits : ∀ c ∈ text, c.isDigit = true
  spells : Nat.ofDigitChars 10 text 0 = n
  ne_nil : text ≠ []
  head : text.head? = some '0' → text = ['0']

/-- The text is the decimal numeral of an integer: with a sign in front if it is negative, and only then. -/
def SignedNumeral (text : List Char) (v : Int) : Prop :=
  if v < 0 then ∃ digits, text = '-' :: digits ∧ Numeral digits v.natAbs else Numeral text v.natAbs

variable {text text' : List Char} {n n' : Nat} {v v' : Int}

/-! ### Numerals -/

theorem head?_toDigits (n : Nat) (hn : 0 < n) : (Nat.toDigits 10 n).head? ≠ some '0' := by
  induction n using Nat.strongRecOn with
  | ind n ih =>
    by_cases hlast : n < 10
    · rw [Nat.toDigits_of_lt_base hlast, List.head?_cons, ne_eq, Option.some.injEq,
        Nat.digitChar_eq_zero]
      omega
    · rw [Nat.toDigits_of_base_le (by decide) (by omega), List.head?_append_of_ne_nil _ Nat.toDigits_ne_nil]
      exact ih (n / 10) (by omega) (by omega)

theorem numeral_toDigits (n : Nat) : Numeral (Nat.toDigits 10 n) n where
  digits _ := Nat.isDigit_of_mem_toDigits (by decide) (by decide)
  spells := Nat.ofDigitChars_ten_toDigits
  ne_nil := Nat.toDigits_ne_nil
  head h := by
    rcases Nat.eq_zero_or_pos n with rfl | hpos
    · exact Nat.toDigits_zero 10
    · exact absurd h (head?_toDigits n hpos)

/-- A digit is the numeral of its number. -/
theorem toDigits_digit {c : Char} (h : c.isDigit = true) :
    c.toNat - '0'.toNat < 10 ∧ Nat.toDigits 10 (c.toNat - '0'.toNat) = [c] := by
  rw [Char.isDigit_iff_toNat] at h
  have hzero : '0'.toNat = 48 := rfl
  have hnine : '9'.toNat = 57 := rfl
  have hlt : c.toNat - '0'.toNat < 10 := by omega
  refine ⟨hlt, ?_⟩
  rw [Nat.toDigits_of_lt_base hlt, List.cons.injEq, ← Char.toNat_inj, Nat.toNat_digitChar_of_lt_ten hlt]
  exact ⟨by omega, rfl⟩

/-- Digits behind a numeral make the numeral of what all of them spell. -/
theorem toDigits_append (cs : List Char) (acc : Nat) (hacc : 0 < acc) (hcs : ∀ c ∈ cs, c.isDigit = true) :
    Nat.toDigits 10 acc ++ cs = Nat.toDigits 10 (Nat.ofDigitChars 10 cs acc) := by
  induction cs generalizing acc with
  | nil => simp
  | cons c cs ih =>
    rw [List.forall_mem_cons] at hcs
    obtain ⟨hlt, hc⟩ := toDigits_digit hcs.1
    have hjoin := Nat.toDigits_append_toDigits (b := 10) (by decide) hacc hlt
    rw [hc] at hjoin
    rw [Nat.ofDigitChars_cons, ← ih _ (by omega) hcs.2, ← hjoin]
    simp

/-- A number has one numeral. -/
theorem Numeral.eq_toDigits (h : Numeral text n) : text = Nat.toDigits 10 n := by
  cases text with
  | nil => exact absurd rfl h.ne_nil
  | cons c cs =>
    have hdigits := List.forall_mem_cons.mp h.digits
    obtain ⟨-, hc⟩ := toDigits_digit hdigits.1
    have hspells := h.spells
    rw [Nat.ofDigitChars_cons, Nat.mul_zero, Nat.zero_add] at hspells
    rcases Nat.eq_zero_or_pos (c.toNat - '0'.toNat) with hzero | hpos
    · have hc0 : c = '0' := by
        rw [hzero, Nat.toDigits_zero] at hc
        exact (List.cons.inj hc).1.symm
      have hcs : c :: cs = ['0'] := h.head (by rw [hc0]; rfl)
      rw [(List.cons.inj hcs).2, hzero, Nat.ofDigitChars_nil] at hspells
      rw [hcs, ← hspells, Nat.toDigits_zero]
    · rw [← hspells, ← toDigits_append cs _ hpos hdigits.2, hc]
      rfl

namespace Decimal

variable {limbs : List UInt32} {carry : UInt64} {bytes : List UInt8}

/-! ### Limbs -/

theorem value_single (hcarry : carry.toNat < 2 ^ 32) :
    value (if carry = 0 then [] else [carry.toUInt32]) = carry.toNat := by
  split
  · next hzero => rw [hzero]; rfl
  · simp only [value, Nat.mul_zero, Nat.add_zero, UInt64.toNat_toUInt32]
    exact Nat.mod_eq_of_lt hcarry

theorem toNat_carry (x : UInt64) : (x >>> 32).toNat = x.toNat / 2 ^ 32 := by
  rw [UInt64.toNat_shiftRight, Nat.shiftRight_eq_div_pow]
  rfl

/-- A word is the limb that stays and what is carried to the limbs above. -/
theorem value_carried {x : UInt64} {rest : Nat} (h : value limbs = rest + (x >>> 32).toNat) :
    value (x.toUInt32 :: limbs) = x.toNat + 2 ^ 32 * rest := by
  rw [toNat_carry] at h
  rw [value, UInt64.toNat_toUInt32, h]
  omega

theorem value_shiftIn (limbs : List UInt32) (carry : UInt64) (hcarry : carry.toNat < 2 ^ 7) :
    value (shiftIn carry limbs) = 2 ^ 7 * value limbs + carry.toNat := by
  induction limbs generalizing carry with
  | nil =>
    rw [shiftIn, value_single (by omega), value, Nat.mul_zero, Nat.zero_add]
  | cons limb limbs ih =>
    have hlimb := limb.toNat_lt
    have hx : (limb.toUInt64 <<< 7 ||| carry).toNat = limb.toNat * 2 ^ 7 + carry.toNat :=
      toNat_join rfl hcarry (by rw [UInt32.toNat_toUInt64]; omega)
    rw [shiftIn]
    generalize limb.toUInt64 <<< 7 ||| carry = x at hx ⊢
    rw [value_carried (ih (x >>> 32) (by rw [toNat_carry]; omega)), hx, value]
    omega

theorem value_addSmall (limbs : List UInt32) (carry : UInt64) (hcarry : carry.toNat < 2 ^ 32) :
    value (addSmall carry limbs) = value limbs + carry.toNat := by
  induction limbs generalizing carry with
  | nil => rw [addSmall, value_single hcarry, value, Nat.zero_add]
  | cons limb limbs ih =>
    rw [addSmall]
    split
    · next hzero => rw [hzero]; rfl
    · have hlimb := limb.toNat_lt
      have hx : (limb.toUInt64 + carry).toNat = limb.toNat + carry.toNat := by
        rw [UInt64.toNat_add, UInt32.toNat_toUInt64]
        exact Nat.mod_eq_of_lt (by omega)
      generalize limb.toUInt64 + carry = x at hx ⊢
      rw [value_carried (ih (x >>> 32) (by rw [toNat_carry]; omega)), hx, value]
      omega

theorem value_ofGroups (groups : List UInt8) (hgroups : ∀ g ∈ groups, g.toNat < 128) :
    value (ofGroups groups) = Leb128.unsignedValue groups := by
  induction groups with
  | nil => rfl
  | cons g groups ih =>
    rw [List.forall_mem_cons] at hgroups
    have hg : g.toUInt64.toNat = Leb128.group g := by
      rw [UInt8.toNat_toUInt64, Leb128.group, Nat.mod_eq_of_lt hgroups.1]
    have hstep := value_shiftIn (ofGroups groups) g.toUInt64 (hg ▸ Leb128.group_lt)
    rw [ih hgroups.2, hg] at hstep
    rw [Leb128.unsignedValue, Nat.add_comm]
    exact hstep

/-! ### Chunks -/

theorem chunks_nil : chunks [] = [] := by
  rw [chunks, if_pos rfl]

theorem chunks_of_ne_nil (hne : limbs ≠ []) :
    chunks limbs = (divSmall chunkSize limbs).2 :: chunks (divSmall chunkSize limbs).1 := by
  rw [chunks, if_neg hne]

theorem divSmall_chunk (limbs : List UInt32) :
    value limbs = 10 ^ 9 * value (divSmall chunkSize limbs).1 + (divSmall chunkSize limbs).2.toNat ∧
      (divSmall chunkSize limbs).2.toNat < 10 ^ 9 :=
  divSmall_spec (d := chunkSize) (by decide) limbs

/-- Limbs without zeros on top spell zero only if there are none. -/
theorem trim_eq_nil (h : value (trim limbs) = 0) : trim limbs = [] := by
  rw [value_trim] at h
  exact trim_of_value_zero h

/-- The chunks are the digits of the number to the base of a thousand million. -/
theorem chunks_spell (limbs : List UInt32) : (∀ c ∈ chunks limbs, c.toNat < 10 ^ 9) ∧
    (chunks limbs).foldr (fun c n => 10 ^ 9 * n + c.toNat) 0 = value limbs := by
  induction limbs using chunks.induct with
  | case1 =>
    rw [chunks_nil]
    exact ⟨by simp, rfl⟩
  | case2 limbs hne quotient chunk hdivided ih =>
    obtain ⟨hvalue, hlt⟩ := divSmall_chunk limbs
    rw [chunks_of_ne_nil hne]
    rw [hdivided] at hvalue hlt ⊢
    refine ⟨List.forall_mem_cons.mpr ⟨hlt, ih.1⟩, ?_⟩
    rw [List.foldr_cons, ih.2, hvalue]

/-- Of limbs without zeros on top the highest chunk is not zero. -/
theorem chunks_top (limbs : List UInt32) (htop : value limbs = 0 → limbs = []) (c : UInt32)
    (hc : (chunks limbs).getLast? = some c) : 0 < c.toNat := by
  induction limbs using chunks.induct with
  | case1 =>
    rw [chunks_nil] at hc
    exact absurd hc (by simp)
  | case2 limbs hne quotient chunk hdivided ih =>
    have hquotient : value quotient = 0 → quotient = [] := by
      have hfst : quotient = (divSmall chunkSize limbs).1 := by rw [hdivided]
      rw [hfst]
      exact trim_eq_nil
    rw [chunks_of_ne_nil hne, hdivided, List.getLast?_cons] at hc
    cases hlast : (chunks quotient).getLast? with
    | some d =>
      rw [hlast] at hc
      exact ih hquotient (hlast.trans hc)
    | none =>
      have hnil : quotient = [] := by
        by_contra hmore
        rw [chunks_of_ne_nil hmore] at hlast
        exact absurd hlast (by simp)
      have hchunk : chunk = c := by
        rw [hlast] at hc
        exact Option.some.inj hc
      obtain ⟨hvalue, -⟩ := divSmall_chunk limbs
      rw [hdivided, hnil, hchunk] at hvalue
      have hpos : value limbs ≠ 0 := fun hzero => hne (htop hzero)
      simp only [value] at hvalue
      omega

/-! ### Digits -/

theorem length_digits_le {c : UInt32} (hc : c.toNat < 10 ^ 9) : (Nat.toDigits 10 c.toNat).length ≤ 9 :=
  (Nat.length_toDigits_le_iff (by decide) (by decide)).mpr hc

theorem isDigit_padded (c : UInt32) : ∀ d ∈ padded c, d.isDigit = true := by
  intro d hd
  rcases List.mem_append.mp hd with hd | hd
  · rw [(List.mem_replicate.mp hd).2]
    rfl
  · exact (numeral_toDigits _).digits d hd

/-- Nine digits behind others make room for their chunk. -/
theorem spells_padded {c : UInt32} (hc : c.toNat < 10 ^ 9) (acc : Nat) :
    Nat.ofDigitChars 10 (padded c) acc = 10 ^ 9 * acc + c.toNat := by
  have hlength := length_digits_le hc
  have hpow : 10 ^ (Nat.toDigits 10 c.toNat).length * 10 ^ (9 - (Nat.toDigits 10 c.toNat).length) =
      10 ^ 9 := by
    rw [← Nat.pow_add, Nat.add_sub_cancel' hlength]
  rw [padded, Nat.ofDigitChars_append, Nat.ofDigitChars_replicate_zero,
    Nat.ofDigitChars_eq_ofDigitChars_zero, Nat.ofDigitChars_ten_toDigits, ← Nat.mul_assoc, hpow]

theorem spells_flatMap_padded (cs : List UInt32) (hcs : ∀ c ∈ cs, c.toNat < 10 ^ 9) (acc : Nat) :
    Nat.ofDigitChars 10 (cs.flatMap padded) acc = cs.foldl (fun n c => 10 ^ 9 * n + c.toNat) acc := by
  induction cs generalizing acc with
  | nil => rfl
  | cons c cs ih =>
    rw [List.forall_mem_cons] at hcs
    rw [List.flatMap_cons, Nat.ofDigitChars_append, spells_padded hcs.1, ih hcs.2]
    rfl

/-- The digits of limbs are those of the number that they spell. -/
theorem digits_eq (limbs : List UInt32) : digits limbs = Nat.toDigits 10 (value limbs) := by
  obtain ⟨hlt, hspell⟩ := chunks_spell (trim limbs)
  have htop := chunks_top (trim limbs) trim_eq_nil
  rw [value_trim, ← List.foldl_reverse] at hspell
  rw [← List.head?_reverse] at htop
  have hlt : ∀ c ∈ (chunks (trim limbs)).reverse, c.toNat < 10 ^ 9 := fun c hc =>
    hlt c (List.mem_reverse.mp hc)
  rw [digits, ← hspell]
  generalize (chunks (trim limbs)).reverse = top at hlt htop ⊢
  cases top with
  | nil => exact (Nat.toDigits_zero 10).symm
  | cons first rest =>
    have hdigits : ∀ d ∈ rest.flatMap padded, d.isDigit = true := by
      intro d hd
      obtain ⟨c, -, hd⟩ := List.mem_flatMap.mp hd
      exact isDigit_padded c d hd
    rw [List.forall_mem_cons] at hlt
    dsimp only
    rw [toDigits_append _ _ (htop first rfl) hdigits, spells_flatMap_padded _ hlt.2, List.foldl_cons,
      Nat.mul_zero, Nat.zero_add]

/-! ### From bytes -/

theorem toNat_payload (b : UInt8) : (b &&& 0x7f).toNat = Leb128.group b :=
  Nat.and_two_pow_sub_one_eq_mod b.toNat 7

theorem toNat_inverted (b : UInt8) : (~~~b &&& 0x7f).toNat = 127 - Leb128.group b := by
  have hlt := b.toNat_lt
  have hnot : (~~~b).toNat = 255 - b.toNat := UInt8.toNat_not b
  rw [toNat_payload, Leb128.group, hnot, Leb128.group]
  omega

/-- Groups without their marks spell the same. -/
theorem unsignedValue_payload (bytes : List UInt8) :
    Leb128.unsignedValue (bytes.map (· &&& 0x7f)) = Leb128.unsignedValue bytes := by
  induction bytes with
  | nil => rfl
  | cons b bytes ih =>
    have hb : Leb128.group (b &&& 0x7f) = Leb128.group b := by
      rw [Leb128.group, toNat_payload]
      exact Nat.mod_eq_of_lt Leb128.group_lt
    rw [List.map_cons, Leb128.unsignedValue, hb, ih, Leb128.unsignedValue]

/-- Inverted groups spell what is missing to the largest number of so many groups. -/
theorem unsignedValue_inverted (bytes : List UInt8) :
    Leb128.unsignedValue (bytes.map fun b => ~~~b &&& 0x7f) + Leb128.unsignedValue bytes + 1 =
      128 ^ bytes.length := by
  induction bytes with
  | nil => rfl
  | cons b bytes ih =>
    have hlt := Leb128.group_lt (b := b)
    have hb : Leb128.group (~~~b &&& 0x7f) = 127 - Leb128.group b := by
      rw [Leb128.group, toNat_inverted]
      exact Nat.mod_eq_of_lt (by omega)
    rw [List.map_cons, Leb128.unsignedValue, hb, Leb128.unsignedValue, List.length_cons, Nat.pow_succ,
      ← ih]
    omega

theorem natural_eq (bytes : List UInt8) :
    natural bytes = String.ofList (Nat.toDigits 10 (Leb128.unsignedValue bytes)) := by
  have hgroups : ∀ g ∈ bytes.map (· &&& 0x7f), g.toNat < 128 := by
    intro g hg
    obtain ⟨b, -, rfl⟩ := List.mem_map.mp hg
    rw [toNat_payload]
    exact Leb128.group_lt
  rw [natural, digits_eq, value_ofGroups _ hgroups, unsignedValue_payload]

/-- The opposite of a negative number is what its inverted groups spell, and one more. -/
theorem integer_negative (front : List UInt8) {last : UInt8} (hlast : Leb128.signed last = true) :
    value (addSmall 1 (ofGroups ((front ++ [last]).map fun b => ~~~b &&& 0x7f))) =
      (Leb128.signedValue (front ++ [last])).natAbs ∧ Leb128.signedValue (front ++ [last]) < 0 := by
  have hgroups : ∀ g ∈ (front ++ [last]).map (fun b => ~~~b &&& 0x7f), g.toNat < 128 := by
    intro g hg
    obtain ⟨b, -, rfl⟩ := List.mem_map.mp hg
    rw [toNat_inverted]
    omega
  have hinverted := unsignedValue_inverted (front ++ [last])
  have hsigned := Leb128.signedValue_concat front last
  rw [if_pos hlast] at hsigned
  rw [List.length_append, List.length_singleton] at hinverted
  have hpow : (128 : Int) ^ (front.length + 1) = (128 ^ (front.length + 1) : Nat) := by
    rw [Int.natCast_pow]
    rfl
  rw [value_addSmall _ _ (by decide), value_ofGroups _ hgroups]
  have hone : (1 : UInt64).toNat = 1 := rfl
  rw [hsigned, hpow, ← hinverted, hone]
  omega

theorem natural_numeral (bytes : List UInt8) :
    Numeral (natural bytes).toList (Leb128.unsignedValue bytes) := by
  rw [natural_eq, String.toList_ofList]
  exact numeral_toDigits _

theorem integer_numeral (bytes : List UInt8) :
    SignedNumeral (integer bytes).toList (Leb128.signedValue bytes) := by
  rcases List.eq_nil_or_concat bytes with rfl | ⟨front, last, rfl⟩
  · exact natural_numeral []
  have hsign : (front ++ [last]).getLast?.any (· &&& 0x40 ≠ 0) = Leb128.signed last := by
    rw [List.getLast?_concat, Option.any_some, Bool.eq_iff_iff, decide_eq_true_eq, Leb128.Word.and_sign]
  rw [List.concat_eq_append, integer, hsign]
  split
  · next hlast =>
    obtain ⟨hvalue, hnegative⟩ := integer_negative front hlast
    rw [SignedNumeral, if_pos hnegative, String.toList_ofList, digits_eq, hvalue]
    exact ⟨_, rfl, numeral_toDigits _⟩
  · next hlast =>
    have hsigned := Leb128.signedValue_concat front last
    rw [if_neg hlast] at hsigned
    rw [hsigned, SignedNumeral, if_neg (Int.natCast_nonneg _).not_gt, Int.natAbs_natCast]
    exact natural_numeral _

end Decimal

/-! ### Numerals of integers -/

theorem Numeral.no_sign (h : Numeral text n) : '-' ∉ text := fun hsign =>
  absurd (h.digits '-' hsign) (by decide)

/-- The sign is there for a negative number only. -/
theorem SignedNumeral.sign_iff (h : SignedNumeral text v) : '-' ∈ text ↔ v < 0 := by
  unfold SignedNumeral at h
  split at h
  · next hneg =>
    obtain ⟨ds, rfl, -⟩ := h
    exact iff_of_true List.mem_cons_self hneg
  · next hpos => exact iff_of_false h.no_sign hpos

/-- Texts that are numerals are the same exactly if the integers are. -/
theorem SignedNumeral.eq_iff (h : SignedNumeral text v) (h' : SignedNumeral text' v') :
    text = text' ↔ v = v' := by
  have hsign := h.sign_iff
  have hsign' := h'.sign_iff
  unfold SignedNumeral at h h'
  constructor
  · rintro rfl
    have hiff := hsign.symm.trans hsign'
    split at h
    · next hneg =>
      rw [if_pos (hiff.mp hneg)] at h'
      obtain ⟨ds, rfl, hds⟩ := h
      obtain ⟨ds', hcons, hds'⟩ := h'
      obtain ⟨-, rfl⟩ := List.cons.inj hcons
      have habs := hds.spells.symm.trans hds'.spells
      omega
    · next hpos =>
      rw [if_neg (mt hiff.mpr hpos)] at h'
      have habs := h.spells.symm.trans h'.spells
      omega
  · rintro rfl
    split at h
    · next hneg =>
      rw [if_pos hneg] at h'
      obtain ⟨ds, rfl, hds⟩ := h
      obtain ⟨ds', rfl, hds'⟩ := h'
      rw [hds.eq_toDigits, hds'.eq_toDigits]
    · next hpos =>
      rw [if_neg hpos] at h'
      rw [h.eq_toDigits, h'.eq_toDigits]

end TypedWire
