import Mathlib.Tactic.Ring
import TypedWire.Number.Leb128
import TypedWire.Proofs.Action

/-! LEB128: what was written is read back, whatever follows it, and widening a number gives a
    number. -/

namespace TypedWire.Leb128

variable {b : UInt8} {bytes rest : List UInt8}

/-! ### Bytes -/

theorem toNat_ofNat_of_lt {n : Nat} (h : n < 256) : (UInt8.ofNat n).toNat = n := by
  simp [Nat.mod_eq_of_lt h]

theorem group_last {n : Nat} (h : n < 128) : group (UInt8.ofNat n) = n := by
  rw [group, toNat_ofNat_of_lt (by omega), Nat.mod_eq_of_lt h]

theorem continues_last {n : Nat} (h : n < 128) : continues (UInt8.ofNat n) = false := by
  rw [continues, toNat_ofNat_of_lt (by omega)]
  simpa using h

theorem group_more {n : Nat} (h : n < 128) : group (UInt8.ofNat (n + 128)) = n := by
  rw [group, toNat_ofNat_of_lt (by omega)]
  omega

theorem continues_more {n : Nat} (h : n < 128) : continues (UInt8.ofNat (n + 128)) = true := by
  rw [continues, toNat_ofNat_of_lt (by omega)]
  simp

theorem group_lt : group b < 128 := Nat.mod_lt _ (by decide)

/-- After a byte of pure sign no other follows. -/
theorem continues_sign (h : b = 0x00 ∨ b = 0x7f) : continues b = false := by
  rcases h with rfl | rfl <;> rfl

/-- Another byte follows one of the first ten at most. -/
theorem lt_ten_of_continues {place : Nat} (hsign : ¬ (10 ≤ place ∧ b ≠ 0x00 ∧ b ≠ 0x7f))
    (hc : continues b = true) : place < 10 := by
  by_contra hfull
  have hb : b = 0x00 ∨ b = 0x7f := by
    by_contra hb
    exact hsign ⟨Nat.le_of_not_lt hfull, not_or.mp hb⟩
  exact absurd (continues_sign hb) (by simp [hc])

/-! ### Numbers of any width -/

theorem isNumber_cons : IsNumber (b :: rest) ↔ if continues b then IsNumber rest else rest = [] := by
  unfold IsNumber
  rw [length?]
  split
  · cases length? rest <;> simp
  · simp

theorem isNumber_singleton : IsNumber [b] ↔ continues b = false := by
  rw [isNumber_cons]
  split <;> simp_all [IsNumber, length?]

/-- The number in front is found whatever follows it. -/
theorem length?_append : ∀ {bytes : List UInt8}, IsNumber bytes → ∀ rest : List UInt8,
    length? (bytes ++ rest) = some bytes.length
  | [], h, _ => by simp [IsNumber, length?] at h
  | b :: bytes, h, rest => by
    rw [isNumber_cons] at h
    rw [List.cons_append, length?]
    split at h
    · next hc => simp [hc, length?_append h rest]
    · next hc => simp [hc, h]

theorem readLength_append (h : IsNumber bytes) (rest : List UInt8) :
    readLength (bytes ++ rest) = .ok bytes.length := by
  rw [readLength, length?_append h]

theorem IsNumber.ne_nil (h : IsNumber bytes) : bytes ≠ [] := by
  rintro rfl
  simp [IsNumber, length?] at h

theorem continues_or : continues (b ||| 0x80) = true := by
  have h : 128 ≤ b.toNat ||| 128 := Nat.right_le_or
  simpa [continues] using h

/-- A number is widened to a number, by one byte at most. -/
theorem widen_isNumber : ∀ {bytes : List UInt8}, IsNumber bytes →
    ∃ wide, widen bytes = .ok wide ∧ IsNumber wide ∧ wide.length ≤ bytes.length + 1
  | [], h => absurd rfl h.ne_nil
  | [b], h => by
    rw [widen]
    split
    · refine ⟨_, rfl, ?_, by simp⟩
      rw [isNumber_cons, if_pos continues_or, isNumber_singleton]
      rfl
    · exact ⟨_, rfl, h, by simp⟩
  | b :: c :: rest, h => by
    rw [isNumber_cons] at h
    split at h
    · next hc =>
      obtain ⟨wide, hw, hnum, hlen⟩ := widen_isNumber h
      refine ⟨b :: wide, by rw [widen, hw] <;> simp [Except.map], ?_, by simpa using hlen⟩
      rwa [isNumber_cons, if_pos hc]
    · simp at h

/-! ### Numbers of 64 bits -/

theorem readUnsignedFrom_encode (v : Nat) : ∀ (place value : Nat) (rest : List UInt8),
    value + v * 128 ^ place < 2 ^ 64 →
    readUnsignedFrom place value (encodeUnsigned v ++ rest) =
      .ok (value + v * 128 ^ place, place + (encodeUnsigned v).length) := by
  induction v using Nat.strongRecOn with
  | ind v ih =>
    intro place value rest hv
    rw [encodeUnsigned]
    split
    · next hlast =>
      simp only [List.cons_append, List.nil_append, readUnsignedFrom, group_last hlast,
        continues_last hlast, if_neg (Nat.not_le.mpr hv), Bool.false_eq_true, if_false,
        List.length_singleton]
    · next hmore =>
      have hmod : v % 128 < 128 := Nat.mod_lt _ (by omega)
      have hsplit : value + v % 128 * 128 ^ place + v / 128 * 128 ^ (place + 1) =
          value + v * 128 ^ place := by
        conv_rhs => rw [← Nat.mod_add_div v 128]
        ring
      have hle : ¬ 2 ^ 64 ≤ value + v % 128 * 128 ^ place := by omega
      simp only [List.cons_append, readUnsignedFrom, group_more hmod, continues_more hmod,
        if_neg hle, if_true]
      rw [ih (v / 128) (by omega) _ _ _ (by omega), hsplit, List.length_cons]
      congr 2
      omega

/-- An unsigned number is read back. -/
theorem readUnsigned_encode {v : Nat} (hv : v < 2 ^ 64) (rest : List UInt8) :
    readUnsigned (encodeUnsigned v ++ rest) = .ok (v, (encodeUnsigned v).length) := by
  have h := readUnsignedFrom_encode v 0 0 rest (by omega)
  simpa [readUnsigned] using h

/-- The last byte of a signed number, after `place` groups. -/
theorem readSignedFrom_last {place value : Nat} {v : Int} (hplace : place ≤ 9) (hlow : -64 ≤ v)
    (hhigh : v < 64) (h64 : IsInt64 (value + v * 128 ^ place)) (rest : List UInt8) :
    readSignedFrom place value (UInt8.ofNat (v % 128).toNat :: rest) =
      .ok (value + v * 128 ^ place, place + 1) := by
  have hlt : (v % 128).toNat < 128 := by omega
  have hnumber : (if signed (UInt8.ofNat (v % 128).toNat) then
      ((value + (v % 128).toNat * 128 ^ place : Nat) : Int) - 128 ^ (place + 1)
      else ((value + (v % 128).toNat * 128 ^ place : Nat) : Int)) = value + v * 128 ^ place := by
    rw [signed, group_last hlt]
    push_cast
    by_cases hneg : v < 0
    · have hmod : (((v % 128).toNat : Nat) : Int) = v + 128 := by omega
      rw [if_pos (by simp; omega), hmod]
      ring
    · have hmod : (((v % 128).toNat : Nat) : Int) = v := by omega
      rw [if_neg (by simp; omega), hmod]
  simp only [readSignedFrom, group_last hlt, continues_last hlt, Bool.false_eq_true, if_false]
  rw [if_neg (by omega), hnumber, if_pos h64]

theorem readSignedFrom_encode : ∀ (k place value : Nat) (v : Int) (rest : List UInt8),
    place + k ≤ 9 → -(64 * 128 ^ k) ≤ v → v < 64 * 128 ^ k → IsInt64 (value + v * 128 ^ place) →
    readSignedFrom place value (encodeSigned v ++ rest) =
      .ok (value + v * 128 ^ place, place + (encodeSigned v).length) := by
  intro k
  induction k with
  | zero =>
    intro place value v rest hplace hlow hhigh h64
    rw [encodeSigned, if_pos ⟨by simpa using hlow, by simpa using hhigh⟩]
    exact readSignedFrom_last (by omega) (by simpa using hlow) (by simpa using hhigh) h64 rest
  | succ k ih =>
    intro place value v rest hplace hlow hhigh h64
    rw [encodeSigned]
    split
    · next hlast => exact readSignedFrom_last (by omega) hlast.1 hlast.2 h64 rest
    · have hmod : (v % 128).toNat < 128 := by omega
      have hgroup : (((v % 128).toNat : Nat) : Int) = v % 128 := by omega
      have hsplit : ((value + (v % 128).toNat * 128 ^ place : Nat) : Int) +
          v / 128 * 128 ^ (place + 1) = value + v * 128 ^ place := by
        push_cast
        rw [hgroup]
        conv_rhs => rw [← Int.emod_add_mul_ediv v 128]
        ring
      have hpow : (64 * 128 ^ (k + 1) : Int) = 128 * (64 * 128 ^ k) := by ring
      rw [hpow] at hlow hhigh
      simp only [List.cons_append, readSignedFrom, group_more hmod, continues_more hmod, if_true]
      rw [if_neg (by omega), ih (place + 1) _ (v / 128) rest (by omega) (by omega) (by omega)
        (by rw [hsplit]; exact h64), hsplit, List.length_cons]
      congr 2
      omega

/-- A signed number is read back. -/
theorem readSigned_encode {v : Int} (hv : IsInt64 v) (rest : List UInt8) :
    readSigned (encodeSigned v ++ rest) = .ok (v, (encodeSigned v).length) := by
  have h64 : IsInt64 ((0 : Nat) + v * 128 ^ 0) := by simpa using hv
  have h := readSignedFrom_encode 9 0 0 v rest (by omega) (by have := hv.1; omega)
    (by have := hv.2; omega) h64
  simpa [readSigned] using h

/-! ### Sizes -/

theorem encodeUnsigned_pos (v : Nat) : 0 < (encodeUnsigned v).length := by
  rw [encodeUnsigned]
  split <;> simp

theorem encodeSigned_pos (v : Int) : 0 < (encodeSigned v).length := by
  rw [encodeSigned]
  split <;> simp

theorem encodeUnsigned_isNumber (v : Nat) : IsNumber (encodeUnsigned v) := by
  induction v using Nat.strongRecOn with
  | ind v ih =>
    rw [encodeUnsigned]
    split
    · next hlast => exact isNumber_singleton.mpr (continues_last hlast)
    · next hmore =>
      rw [isNumber_cons, if_pos (continues_more (Nat.mod_lt _ (by omega)))]
      exact ih (v / 128) (by omega)

theorem length_encodeUnsigned : ∀ (k : Nat) {v : Nat}, v < 128 ^ (k + 1) →
    (encodeUnsigned v).length ≤ k + 1
  | 0, v, hv => by
    rw [encodeUnsigned, if_pos (by simpa using hv)]
    simp
  | k + 1, v, hv => by
    have hdiv : v / 128 < 128 ^ (k + 1) := Nat.div_lt_of_lt_mul (by rwa [Nat.pow_succ'] at hv)
    have hrest := length_encodeUnsigned k hdiv
    rw [encodeUnsigned]
    split <;> simp only [List.length_cons, List.length_nil] <;> omega

/-- A signed number takes at most so many bytes as its groups. -/
theorem encodeSigned_isNumber : ∀ (k : Nat) {v : Int}, -(64 * 128 ^ k) ≤ v → v < 64 * 128 ^ k →
    IsNumber (encodeSigned v) ∧ (encodeSigned v).length ≤ k + 1
  | 0, v, hlow, hhigh => by
    rw [encodeSigned, if_pos ⟨by simpa using hlow, by simpa using hhigh⟩]
    exact ⟨isNumber_singleton.mpr (continues_last (by omega)), by simp⟩
  | k + 1, v, hlow, hhigh => by
    rw [encodeSigned]
    split
    · exact ⟨isNumber_singleton.mpr (continues_last (by omega)), by simp⟩
    · have hpow : (64 * 128 ^ (k + 1) : Int) = 128 * (64 * 128 ^ k) := by ring
      rw [hpow] at hlow hhigh
      obtain ⟨hnum, hlen⟩ := encodeSigned_isNumber k (v := v / 128) (by omega) (by omega)
      rw [isNumber_cons, if_pos (continues_more (by omega)), List.length_cons]
      exact ⟨hnum, by omega⟩

end TypedWire.Leb128
