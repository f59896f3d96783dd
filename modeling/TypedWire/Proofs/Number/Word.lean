import Mathlib.Data.Nat.Bitwise
import TypedWire.Number.Word
import TypedWire.Proofs.Number.Leb128

/-! LEB128 on machine words is LEB128 on numbers. The loops break no limit of their words, whatever the
    bytes are, and answer what is answered with numbers of any size; the loops that write put down the
    shortest encodings. -/

namespace TypedWire.Leb128.Word

variable {w k g place count acc : Nat} {b : UInt8} {shift : BitVec 32}

/-! ### Masks -/

theorem toNat_group (hw : 8 ≤ w) : ((b &&& 0x7f).toBitVec.setWidth w).toNat = group b := by
  have hmask : (b &&& 0x7f).toNat = b.toNat % 128 := Nat.and_two_pow_sub_one_eq_mod b.toNat 7
  have hbyte : 128 ≤ 2 ^ w := (by decide : 128 ≤ 2 ^ 8).trans (Nat.pow_le_pow_right (by decide) hw)
  rw [BitVec.toNat_setWidth, UInt8.toNat_toBitVec, hmask, group]
  exact Nat.mod_eq_of_lt ((Nat.mod_lt _ (by decide)).trans_le hbyte)

theorem and_continuation : b &&& 0x80 = 0 ↔ continues b = false := by
  have hmask : (b &&& 0x80).toNat = (b.toNat.testBit 7).toNat * 128 := Nat.and_two_pow b.toNat 7
  have hlt := b.toNat_lt
  rw [← UInt8.toNat_inj, hmask, Nat.testBit_eq_decide_div_mod_eq, continues]
  by_cases h : b.toNat / 2 ^ 7 % 2 = 1
  · simp [h]
    omega
  · simp [h]
    omega

theorem and_sign : b &&& 0x40 ≠ 0 ↔ signed b = true := by
  have hmask : (b &&& 0x40).toNat = (b.toNat.testBit 6).toNat * 64 := Nat.and_two_pow b.toNat 6
  rw [ne_eq, ← UInt8.toNat_inj, hmask, Nat.testBit_eq_decide_div_mod_eq, signed, group]
  by_cases h : b.toNat / 2 ^ 6 % 2 = 1
  · simp [h]
    omega
  · simp [h]
    omega

/-! ### Groups -/

theorem pow_place (place : Nat) : 128 ^ place = 2 ^ (7 * place) := (Nat.pow_mul 2 7 place).symm

/-- A group that is put above what has been read adds its worth, if the sum is a word. -/
theorem or_shiftLeft {value chunk : BitVec w} (hlt : value.toNat < 2 ^ k)
    (hsum : value.toNat + chunk.toNat * 2 ^ k < 2 ^ w) :
    value ||| chunk <<< k = .ofNat w (value.toNat + chunk.toNat * 2 ^ k) := by
  refine BitVec.eq_of_toNat_eq ?_
  rw [BitVec.toNat_or, BitVec.toNat_shiftLeft, Nat.mod_eq_of_lt (by rw [Nat.shiftLeft_eq]; omega),
    BitVec.toNat_ofNat, Nat.mod_eq_of_lt hsum, Nat.or_comm, ← Nat.shiftLeft_add_eq_or_of_lt hlt,
    Nat.shiftLeft_eq, Nat.add_comm]

/-- A group passes the word exactly if the sum does: what stands below it fills no group. -/
theorem passes_word (hacc : acc < 2 ^ k) (hk : k ≤ w) : 2 ^ w ≤ acc + g * 2 ^ k ↔ 2 ^ w ≤ g * 2 ^ k := by
  refine ⟨fun h => ?_, fun h => h.trans (Nat.le_add_left _ _)⟩
  have hsplit : 2 ^ w = 2 ^ (w - k) * 2 ^ k := by
    rw [← Nat.pow_add, Nat.sub_add_cancel hk]
  rw [hsplit] at h ⊢
  have hlt : 2 ^ (w - k) * 2 ^ k < (g + 1) * 2 ^ k := by
    rw [Nat.succ_mul]
    omega
  exact Nat.mul_le_mul_right _ (Nat.lt_succ_iff.mp (Nat.lt_of_mul_lt_mul_right hlt))

/-- A group that is moved up and down again is the same exactly if it did not pass the word. -/
theorem shifted_back : g * 2 ^ k % 2 ^ w / 2 ^ k = g ↔ g * 2 ^ k < 2 ^ w := by
  refine ⟨fun h => ?_, fun h => ?_⟩
  · have hle : g * 2 ^ k ≤ g * 2 ^ k % 2 ^ w := by
      conv_lhs => rw [← h]
      exact Nat.div_mul_le_self _ _
    exact hle.trans_lt (Nat.mod_lt _ (Nat.two_pow_pos w))
  · rw [Nat.mod_eq_of_lt h, Nat.mul_div_cancel _ (Nat.two_pow_pos k)]

/-- Where a loop is after `place` groups that spell `acc`. -/
structure After (place acc : Nat) (value : BitVec w) (shift : BitVec 32) : Prop where
  value : value.toNat = acc
  lt : acc < 128 ^ place
  shift : shift.toNat = min (7 * place) (2 ^ 32 - 1)

theorem after_start : After 0 0 (0 : BitVec w) 0 := ⟨by simp, by simp, by simp⟩

theorem lt_next (h : acc < 128 ^ place) : acc + group b * 128 ^ place < 128 ^ (place + 1) := by
  have hgroup : group b ≤ 127 := Nat.le_of_lt_succ group_lt
  have hmul := Nat.mul_le_mul_right (128 ^ place) hgroup
  rw [Nat.pow_succ]
  omega

theorem toNat_addUpTo (h : shift.toNat = min (7 * place) (2 ^ 32 - 1)) :
    (addUpTo shift 7).toNat = min (7 * (place + 1)) (2 ^ 32 - 1) := by
  have hseven : (7 : BitVec 32).toNat = 7 := rfl
  unfold addUpTo
  rw [hseven]
  split
  · rw [BitVec.toNat_add, hseven, Nat.mod_eq_of_lt (by assumption)]
    omega
  · rw [BitVec.toNat_allOnes]
    omega

/-! ### Reading unsigned words -/

theorem unsignedGroup?_eq {value : BitVec 64} (h : After place acc value shift) :
    unsignedGroup? value shift b = some (if 2 ^ 64 ≤ acc + group b * 128 ^ place then .error .overflow
      else .ok (.ofNat 64 (acc + group b * 128 ^ place))) := by
  obtain ⟨rfl, hlt, hshift⟩ := h
  have hchunk : ((b &&& 0x7f).toBitVec.setWidth 64).toNat = group b := toNat_group (by decide)
  unfold unsignedGroup?
  generalize (b &&& 0x7f).toBitVec.setWidth 64 = chunk at hchunk ⊢
  dsimp only
  by_cases hplace : 64 ≤ shift.toNat
  · -- the word is full, and any group but zero is too much
    rw [if_pos hplace]
    by_cases hzero : chunk = 0
    · have hgroup : group b = 0 := by rw [← hchunk, hzero]; rfl
      rw [if_neg (not_not.mpr hzero), hgroup, Nat.zero_mul, Nat.add_zero,
        if_neg (Nat.not_le.mpr value.isLt), BitVec.ofNat_toNat, BitVec.setWidth_eq]
      rfl
    · have hpow : 2 ^ 64 ≤ 128 ^ place := by
        rw [pow_place]
        exact Nat.pow_le_pow_right (by decide) (by omega)
      have hgroup : 0 < group b := by
        rw [← hchunk, Nat.pos_iff_ne_zero]
        exact fun h => hzero (BitVec.eq_of_toNat_eq h)
      rw [if_pos hzero, if_pos (hpow.trans ((Nat.le_mul_of_pos_left _ hgroup).trans (Nat.le_add_left _ _)))]
      rfl
  · have hk : shift.toNat = 7 * place := by omega
    rw [pow_place, ← hk] at hlt ⊢
    have hup : (chunk <<< shift.toNat).toNat = group b * 2 ^ shift.toNat % 2 ^ 64 := by
      rw [BitVec.toNat_shiftLeft, hchunk, Nat.shiftLeft_eq]
    have hdown : chunk <<< shift.toNat >>> shift.toNat = chunk ↔ group b * 2 ^ shift.toNat < 2 ^ 64 := by
      rw [← BitVec.toNat_inj, BitVec.toNat_ushiftRight, hup, hchunk, Nat.shiftRight_eq_div_pow]
      exact shifted_back
    simp only [if_neg hplace, shiftLeft?, shiftRight?, if_pos (Nat.lt_of_not_le hplace), Option.bind_eq_bind,
      Option.bind_some, ne_eq, hdown, passes_word hlt (Nat.le_of_not_le hplace), Nat.not_lt]
    split
    · rfl
    · next hfits =>
      rw [← passes_word hlt (Nat.le_of_not_le hplace), Nat.not_le, ← hchunk] at hfits
      rw [or_shiftLeft hlt hfits, hchunk]
      rfl

theorem readUnsignedFrom?_eq : ∀ (bytes : List UInt8) {place acc : Nat} {value : BitVec 64}
    {shift : BitVec 32}, After place acc value shift →
    readUnsignedFrom? value shift place bytes =
      some ((readUnsignedFrom place acc bytes).map fun p => (.ofNat 64 p.1, p.2))
  | [], _, _, _, _, _ => rfl
  | b :: rest, place, acc, value, shift, h => by
    rw [readUnsignedFrom?, unsignedGroup?_eq h, readUnsignedFrom]
    by_cases hover : 2 ^ 64 ≤ acc + group b * 128 ^ place
    · simp only [if_pos hover]
      rfl
    · have hnext : After (place + 1) (acc + group b * 128 ^ place)
          (BitVec.ofNat 64 (acc + group b * 128 ^ place)) (addUpTo shift 7) :=
        ⟨Nat.mod_eq_of_lt (Nat.lt_of_not_le hover), lt_next h.lt, toNat_addUpTo h.shift⟩
      simp only [if_neg hover, Option.bind_eq_bind, Option.bind_some, and_continuation]
      cases continues b with
      | false => rfl
      | true => exact readUnsignedFrom?_eq rest hnext

/-- The loop on words breaks no limit, and answers what is answered with numbers. -/
theorem readUnsigned?_eq (bytes : List UInt8) :
    readUnsigned? bytes = some ((readUnsigned bytes).map fun p => (.ofNat 64 p.1, p.2)) :=
  readUnsignedFrom?_eq bytes after_start

/-! ### Reading signed words -/

theorem signedGroup?_eq {value : BitVec 128} (h : After place acc value shift) (hplace : place ≤ 10) :
    signedGroup? value shift b = some (if 10 ≤ place ∧ b ≠ 0x00 ∧ b ≠ 0x7f then .error .overflow
      else .ok (.ofNat 128 (acc + group b * 128 ^ place), .ofNat 32 (7 * (place + 1)))) := by
  obtain ⟨rfl, hlt, hshift⟩ := h
  have hk : shift.toNat = 7 * place := by omega
  have hchunk : ((b &&& 0x7f).toBitVec.setWidth 128).toNat = group b := toNat_group (by decide)
  have hfull : 64 ≤ shift.toNat ↔ 10 ≤ place := by omega
  have hsum : value.toNat + group b * 2 ^ shift.toNat < 2 ^ 128 := by
    have hnext := lt_next (b := b) hlt
    rw [pow_place, pow_place, ← hk] at hnext
    exact hnext.trans_le (Nat.pow_le_pow_right (by decide) (by omega))
  have hor : value ||| (b &&& 0x7f).toBitVec.setWidth 128 <<< shift.toNat =
      .ofNat 128 (value.toNat + group b * 128 ^ place) := by
    rw [pow_place, ← hk] at hlt ⊢
    rw [← hchunk] at hsum ⊢
    exact or_shiftLeft hlt hsum
  have hadd : add? shift 7 = some (.ofNat 32 (7 * (place + 1))) := by
    have hseven : (7 : BitVec 32).toNat = 7 := rfl
    rw [add?, if_pos (by omega)]
    refine congrArg some (BitVec.eq_of_toNat_eq ?_)
    rw [BitVec.toNat_add, BitVec.toNat_ofNat, hseven, hk, Nat.mul_succ]
  unfold signedGroup?
  simp only [hfull, shiftLeft?, if_pos (show shift.toNat < 128 by omega), hadd, Option.bind_eq_bind,
    Option.bind_some, hor]
  split <;> rfl

/-- The signs above what has been read take `2 ^ k` away. -/
theorem or_signs {value : BitVec 128} (hlt : value.toNat < 2 ^ k) (hk : k < 128) :
    value ||| -BitVec.twoPow 128 k = .ofInt 128 (value.toNat - (2 ^ k : Nat)) := by
  have hle : 2 ^ k < 2 ^ 128 := Nat.pow_lt_pow_right (by decide) hk
  have hpos := Nat.two_pow_pos k
  have hsplit : (2 ^ (128 - k) - 1) * 2 ^ k = 2 ^ 128 - 2 ^ k := by
    rw [Nat.sub_mul, ← Nat.pow_add, Nat.sub_add_cancel hk.le, Nat.one_mul]
  have hsigns : (BitVec.ofNat 128 (2 ^ (128 - k) - 1)).toNat = 2 ^ (128 - k) - 1 := by
    have hpow : 2 ^ (128 - k) ≤ 2 ^ 128 := Nat.pow_le_pow_right (by decide) (by omega)
    have := Nat.two_pow_pos (128 - k)
    exact Nat.mod_eq_of_lt (by omega)
  have hneg : -BitVec.twoPow 128 k = BitVec.ofNat 128 (2 ^ (128 - k) - 1) <<< k := by
    refine BitVec.eq_of_toNat_eq ?_
    rw [BitVec.toNat_neg, BitVec.toNat_twoPow, Nat.mod_eq_of_lt hle, BitVec.toNat_shiftLeft, hsigns,
      Nat.shiftLeft_eq, hsplit]
  have hsum : value.toNat + (BitVec.ofNat 128 (2 ^ (128 - k) - 1)).toNat * 2 ^ k < 2 ^ 128 := by
    rw [hsigns, hsplit]
    omega
  rw [hneg, or_shiftLeft hlt hsum, hsigns, hsplit]
  refine BitVec.eq_of_toNat_eq ?_
  rw [BitVec.toNat_ofNat, BitVec.toNat_ofInt]
  generalize 2 ^ k = high at *
  omega

/-- The number that `place` groups spell once the last byte is known. -/
def numberOf (place acc : Nat) (last : UInt8) : Int := if signed last then acc - 128 ^ place else acc

theorem extendSign?_eq {value : BitVec 128} (h : After place acc value shift) (hplace : place ≤ 11) :
    extendSign? value shift b = some (.ofInt 128 (numberOf place acc b)) := by
  obtain ⟨rfl, hlt, hshift⟩ := h
  have hk : shift.toNat = 7 * place := by omega
  have hroom : shift.toNat < 128 := by omega
  have hone : shiftLeft? (1 : BitVec 128) shift = some (BitVec.twoPow 128 shift.toNat) := if_pos hroom
  have hneg : neg? (BitVec.twoPow 128 shift.toNat) = some (-BitVec.twoPow 128 shift.toNat) := by
    refine if_neg fun h => ?_
    rw [BitVec.intMin, ← BitVec.toNat_inj, BitVec.toNat_twoPow, BitVec.toNat_twoPow,
      Nat.mod_eq_of_lt (Nat.pow_lt_pow_right (by decide) hroom)] at h
    have := Nat.pow_right_injective (by decide : 2 ≤ 2) (h.trans (Nat.mod_eq_of_lt (by decide)))
    omega
  unfold extendSign? numberOf
  simp only [and_sign, hroom, and_true]
  split
  · rw [pow_place, ← hk] at hlt
    have hpow : ((128 : Int) ^ place) = (2 ^ shift.toNat : Nat) := by
      rw [hk, ← pow_place, Int.natCast_pow]
      rfl
    simp only [hone, hneg, Option.bind_eq_bind, Option.bind_some, or_signs hlt hroom, hpow]
    rfl
  · rw [BitVec.ofInt_natCast, BitVec.ofNat_toNat, BitVec.setWidth_eq]
    rfl

theorem lt_numberOf (hlt : acc < 128 ^ place) (hplace : place ≤ 11) :
    -2 ^ 127 ≤ numberOf place acc b ∧ numberOf place acc b < 2 ^ 127 := by
  have hle : 128 ^ place ≤ 128 ^ 11 := Nat.pow_le_pow_right (by decide) hplace
  have hcast : ((128 : Int) ^ place) = (128 ^ place : Nat) := by
    rw [Int.natCast_pow]
    rfl
  rw [numberOf, hcast]
  split <;> omega

/-- The number is narrowed exactly if it has 64 bits, and then it stays the same. -/
theorem narrow_eq {v : Int} (hlow : -2 ^ 127 ≤ v) (hhigh : v < 2 ^ 127) :
    narrow (.ofInt 128 v) = if IsInt64 v then .ok (.ofInt 64 v) else .error .overflow := by
  rw [narrow, BitVec.toInt_ofInt_eq_self (by decide) hlow hhigh]
  refine if_congr Iff.rfl (congrArg _ (BitVec.eq_of_toNat_eq ?_)) rfl
  rw [BitVec.toNat_setWidth, BitVec.toNat_ofInt, BitVec.toNat_ofInt]
  omega

theorem readSignedFrom?_eq : ∀ (bytes : List UInt8) {place acc : Nat} {value : BitVec 128}
    {shift : BitVec 32}, After place acc value shift → place ≤ 10 →
    readSignedFrom? value shift place bytes =
      some ((readSignedFrom place acc bytes).map fun p => (.ofInt 64 p.1, p.2))
  | [], _, _, _, _, _, _ => rfl
  | b :: rest, place, acc, value, shift, h, hplace => by
    rw [readSignedFrom?, signedGroup?_eq h hplace, readSignedFrom]
    by_cases hsign : 10 ≤ place ∧ b ≠ 0x00 ∧ b ≠ 0x7f
    · simp only [if_pos hsign]
      rfl
    · have hnext : After (place + 1) (acc + group b * 128 ^ place)
          (BitVec.ofNat 128 (acc + group b * 128 ^ place)) (BitVec.ofNat 32 (7 * (place + 1))) := by
        have hlt := lt_next (b := b) h.lt
        have hle : 128 ^ (place + 1) ≤ 128 ^ 11 := Nat.pow_le_pow_right (by decide) (by omega)
        refine ⟨Nat.mod_eq_of_lt (by omega), hlt, ?_⟩
        rw [BitVec.toNat_ofNat]
        omega
      simp only [if_neg hsign, Option.bind_eq_bind, Option.bind_some, and_continuation]
      cases hc : continues b with
      | false =>
        obtain ⟨hlow, hhigh⟩ := lt_numberOf (b := b) hnext.lt (by omega)
        rw [if_pos rfl, extendSign?_eq hnext (by omega), Option.bind_some, narrow_eq hlow hhigh,
          if_neg Bool.false_ne_true, ← numberOf]
        split <;> rfl
      | true =>
        exact readSignedFrom?_eq rest hnext (lt_ten_of_continues hsign hc)

/-- The loop on words breaks no limit, and answers what is answered with numbers. -/
theorem readSigned?_eq (bytes : List UInt8) :
    readSigned? bytes = some ((readSigned bytes).map fun p => (.ofInt 64 p.1, p.2)) :=
  readSignedFrom?_eq bytes after_start (Nat.zero_le _)

/-! ### Writing -/

theorem toNat_lowGroup (v : BitVec 64) : (lowGroup v).toNat = v.toNat % 128 := by
  have hmask : (v &&& 0x7f).toNat = v.toNat % 128 := Nat.and_two_pow_sub_one_eq_mod v.toNat 7
  change ((v &&& 0x7f).setWidth 8).toNat = _
  rw [BitVec.toNat_setWidth, hmask]
  omega

theorem lowGroup_eq (v : BitVec 64) : lowGroup v = .ofNat (v.toNat % 128) := by
  rw [← UInt8.toNat_inj, toNat_lowGroup, toNat_ofNat_of_lt (by omega)]

theorem lowGroup_or (v : BitVec 64) : lowGroup v ||| 0x80 = .ofNat (v.toNat % 128 + 128) := by
  have hlt : (lowGroup v).toNat < 2 ^ 7 := by
    rw [toNat_lowGroup]
    omega
  have hor : (lowGroup v ||| 0x80).toNat = 128 + (lowGroup v).toNat :=
    (Nat.or_comm _ _).trans (Nat.shiftLeft_add_eq_or_of_lt hlt 1).symm
  rw [← UInt8.toNat_inj, hor, toNat_lowGroup, toNat_ofNat_of_lt (by omega), Nat.add_comm]

/-- The remainder of a signed word is that of its bits. -/
theorem toInt_mod (v : BitVec 64) : (v.toInt % 128).toNat = v.toNat % 128 := by
  rw [BitVec.toInt_eq_toNat_cond]
  split <;> omega

theorem writeUnsigned_eq : ∀ (buffer : List UInt8) (v : BitVec 64),
    writeUnsigned v buffer = Leb128.place (encodeUnsigned v.toNat) buffer
  | [], v => by
    rw [encodeUnsigned]
    split <;> rfl
  | c :: buffer, v => by
    have hmore : (v >>> 7).toNat = v.toNat / 128 := by
      rw [BitVec.toNat_ushiftRight, Nat.shiftRight_eq_div_pow]
    have hlast : v >>> 7 = 0 ↔ v.toNat < 128 := by
      rw [← BitVec.toNat_inj, hmore]
      exact Nat.div_eq_zero_iff_lt (by decide)
    rw [writeUnsigned, encodeUnsigned]
    simp only [hlast, writeUnsigned_eq buffer, hmore, lowGroup_or]
    split
    · next h => rw [lowGroup_eq, Nat.mod_eq_of_lt h]; rfl
    · rfl

theorem writeSigned_eq : ∀ (buffer : List UInt8) (v : BitVec 64),
    writeSigned v buffer = Leb128.place (encodeSigned v.toInt) buffer
  | [], v => by
    rw [encodeSigned]
    split <;> rfl
  | c :: buffer, v => by
    have hsix : (v.sshiftRight 6).toInt = v.toInt / 64 := by
      rw [BitVec.toInt_sshiftRight, Int.shiftRight_eq_div_pow]
      rfl
    have hmore : ((v.sshiftRight 6).sshiftRight 1).toInt = v.toInt / 128 := by
      rw [BitVec.toInt_sshiftRight, Int.shiftRight_eq_div_pow, hsix]
      omega
    have hlast : v.sshiftRight 6 = 0 ∨ v.sshiftRight 6 = -1 ↔ -64 ≤ v.toInt ∧ v.toInt < 64 := by
      rw [← BitVec.toInt_inj, ← BitVec.toInt_inj, hsix]
      change v.toInt / 64 = 0 ∨ v.toInt / 64 = -1 ↔ _
      omega
    rw [writeSigned, encodeSigned, toInt_mod]
    simp only [hlast, writeSigned_eq buffer, hmore, lowGroup_or]
    split
    · rw [lowGroup_eq]; rfl
    · rfl

end TypedWire.Leb128.Word
