import TypedWire.Proofs.Number.Leb128

/-! Which strings of bytes the readers of 64-bit numbers accept, and for what number. An unsigned number
    may be padded to any length; a signed one has ten bytes at most, or one more that tells nothing but
    the sign. -/

namespace TypedWire.Leb128

/-- The bytes spell an unsigned number of 64 bits. -/
structure Unsigned (bytes : List UInt8) (v : Nat) : Prop where
  number : IsNumber bytes
  value : unsignedValue bytes = v
  lt : v < 2 ^ 64

/-- The bytes spell a signed number of 64 bits. -/
structure Signed (bytes : List UInt8) (v : Int) : Prop where
  number : IsNumber bytes
  value : signedValue bytes = v
  int64 : IsInt64 v
  /-- What comes after ten bytes is a last byte of pure sign. -/
  sign : ∀ b ∈ bytes.drop 10, b = 0x00 ∨ b = 0x7f

variable {b : UInt8} {bytes front : List UInt8} {n place value : Nat}

theorem IsNumber.pos (h : IsNumber bytes) : 0 < bytes.length := List.length_pos_iff.mpr h.ne_nil

/-- The number in front is read by its first byte, and then by the others if there are more. -/
theorem exists_front_cons {P : List UInt8 → Prop} {rest : List UInt8} :
    (∃ front more, b :: rest = front ++ more ∧ IsNumber front ∧ P front) ↔
      if continues b then ∃ front more, rest = front ++ more ∧ IsNumber front ∧ P (b :: front)
      else P [b] := by
  constructor
  · rintro ⟨front, more, hsplit, hnumber, hP⟩
    cases front with
    | nil => exact absurd rfl hnumber.ne_nil
    | cons c front =>
      rw [List.cons_append, List.cons.injEq] at hsplit
      obtain ⟨rfl, rfl⟩ := hsplit
      rw [isNumber_cons] at hnumber
      split at hnumber
      · next hc => exact if_pos hc ▸ ⟨front, more, rfl, hnumber, hP⟩
      · next hc => exact if_neg hc ▸ hnumber ▸ hP
  · intro h
    split at h
    · next hc =>
      obtain ⟨front, more, rfl, hnumber, hP⟩ := h
      exact ⟨b :: front, more, rfl, isNumber_cons.mpr (if_pos hc ▸ hnumber), hP⟩
    · next hc => exact ⟨[b], rest, rfl, isNumber_singleton.mpr (by simpa using hc), h⟩

/-! ### Unsigned numbers -/

theorem readUnsignedFrom_eq_ok {v : Nat} : ∀ {bytes : List UInt8} {place value : Nat},
    readUnsignedFrom place value bytes = .ok (v, n) ↔
      ∃ front more, bytes = front ++ more ∧ IsNumber front ∧ n = place + front.length ∧
        v = value + unsignedValue front * 128 ^ place ∧ v < 2 ^ 64
  | [], place, value => by
    refine iff_of_false (by simp [readUnsignedFrom]) ?_
    rintro ⟨front, more, hnil, hnumber, -⟩
    exact hnumber.ne_nil (List.append_eq_nil_iff.mp hnil.symm).1
  | b :: rest, place, value => by
    rw [exists_front_cons, readUnsignedFrom]
    have hcons : ∀ front, value + unsignedValue (b :: front) * 128 ^ place =
        value + group b * 128 ^ place + unsignedValue front * 128 ^ (place + 1) := by
      intro front
      rw [unsignedValue]
      ring
    simp only [hcons, List.length_cons]
    by_cases hbig : 2 ^ 64 ≤ value + group b * 128 ^ place
    · rw [if_pos hbig]
      refine iff_of_false (by simp) fun h => ?_
      split at h
      · obtain ⟨front, more, -, -, -, rfl, hlt⟩ := h
        omega
      · obtain ⟨-, rfl, hlt⟩ := h
        omega
    rw [if_neg hbig]
    split
    · rw [readUnsignedFrom_eq_ok]
      simp only [Nat.add_assoc, Nat.add_comm 1]
    · simp only [Except.ok.injEq, Prod.mk.injEq, unsignedValue, List.length_nil, Nat.zero_mul]
      constructor
      · rintro ⟨rfl, rfl⟩
        exact ⟨rfl, rfl, by omega⟩
      · rintro ⟨rfl, rfl, -⟩
        exact ⟨rfl, rfl⟩

/-- An unsigned number is read from the bytes that spell it, and from no others. -/
theorem readUnsigned_eq_ok {v : Nat} : readUnsigned bytes = .ok (v, n) ↔
    ∃ front more, bytes = front ++ more ∧ n = front.length ∧ Unsigned front v := by
  rw [readUnsigned, readUnsignedFrom_eq_ok]
  simp only [Nat.zero_add, Nat.pow_zero, Nat.mul_one]
  constructor
  · rintro ⟨front, more, hsplit, hnumber, hn, rfl, hlt⟩
    exact ⟨front, more, hsplit, hn, hnumber, rfl, hlt⟩
  · rintro ⟨front, more, hsplit, hn, hnumber, rfl, hlt⟩
    exact ⟨front, more, hsplit, hnumber, hn, rfl, hlt⟩

theorem Unsigned.read {v : Nat} (h : Unsigned front v) (more : List UInt8) :
    readUnsigned (front ++ more) = .ok (v, front.length) :=
  readUnsigned_eq_ok.mpr ⟨front, more, rfl, rfl, h⟩

/-- What is written for a number spells it. -/
theorem unsigned_encode {v : Nat} (hv : v < 2 ^ 64) : Unsigned (encodeUnsigned v) v := by
  obtain ⟨front, more, hsplit, hlength, hfront⟩ := readUnsigned_eq_ok.mp (readUnsigned_encode hv [])
  rwa [(List.append_inj hsplit hlength).1]

/-! ### Signed numbers -/

theorem signedValue_cons (h : IsNumber bytes) :
    signedValue (b :: bytes) = group b + 128 * signedValue bytes := by
  cases bytes with
  | nil => exact absurd rfl h.ne_nil
  | cons c bytes => rfl

theorem forall_drop_cons {P : UInt8 → Prop} {rest : List UInt8} :
    (∀ c ∈ (b :: rest).drop (10 - place), P c) ↔
      (10 ≤ place → P b) ∧ ∀ c ∈ rest.drop (10 - (place + 1)), P c := by
  by_cases hplace : 10 ≤ place
  · have hzero : 10 - place = 0 := by omega
    have hzero' : 10 - (place + 1) = 0 := by omega
    simp [hzero, hzero', hplace]
  · have hsucc : 10 - place = 10 - (place + 1) + 1 := by omega
    rw [hsucc, List.drop_succ_cons]
    simp [hplace]

theorem readSignedFrom_eq_ok {v : Int} : ∀ {bytes : List UInt8} {place value : Nat},
    readSignedFrom place value bytes = .ok (v, n) ↔
      ∃ front more, bytes = front ++ more ∧ IsNumber front ∧ n = place + front.length ∧
        v = value + signedValue front * 128 ^ place ∧ IsInt64 v ∧
          ∀ b ∈ front.drop (10 - place), b = 0x00 ∨ b = 0x7f
  | [], place, value => by
    refine iff_of_false (by simp [readSignedFrom]) ?_
    rintro ⟨front, more, hnil, hnumber, -⟩
    exact hnumber.ne_nil (List.append_eq_nil_iff.mp hnil.symm).1
  | b :: rest, place, value => by
    rw [exists_front_cons, readSignedFrom]
    simp only [forall_drop_cons, List.length_cons]
    by_cases hsign : 10 ≤ place ∧ b ≠ 0x00 ∧ b ≠ 0x7f
    · rw [if_pos hsign]
      have hnot : ¬ (10 ≤ place → b = 0x00 ∨ b = 0x7f) := by tauto
      refine iff_of_false (by simp) fun h => ?_
      split at h
      · obtain ⟨front, more, -, -, -, -, -, hb, -⟩ := h
        exact hnot hb
      · exact hnot h.2.2.2.1
    have hfine : (10 ≤ place → b = 0x00 ∨ b = 0x7f) ↔ True := iff_true_intro (by tauto)
    rw [if_neg hsign]
    split
    · rw [readSignedFrom_eq_ok]
      refine exists_congr fun front => exists_congr fun more => and_congr_right fun _ => ?_
      refine and_congr_right fun hnumber => ?_
      have hvalue : ((value + group b * 128 ^ place : Nat) : Int) +
          signedValue front * 128 ^ (place + 1) =
          value + signedValue (b :: front) * 128 ^ place := by
        rw [signedValue_cons hnumber]
        push_cast
        ring
      simp only [hvalue, hfine, Nat.add_assoc, Nat.add_comm 1, true_and]
    · have hvalue : (if signed b = true then ((value + group b * 128 ^ place : Nat) : Int) -
          128 ^ (place + 1) else ((value + group b * 128 ^ place : Nat) : Int)) =
          value + signedValue [b] * 128 ^ place := by
        rw [signedValue]
        split
        · push_cast
          ring
        · push_cast
          ring
      rw [hvalue]
      split
      · next h64 =>
        simp only [Except.ok.injEq, Prod.mk.injEq, hfine, List.drop_nil, List.not_mem_nil,
          List.length_nil, false_implies, implies_true, and_true]
        constructor
        · rintro ⟨rfl, rfl⟩
          exact ⟨rfl, rfl, h64⟩
        · rintro ⟨rfl, rfl, -⟩
          exact ⟨rfl, rfl⟩
      · next h64 =>
        refine iff_of_false (by simp) ?_
        rintro ⟨-, rfl, hint, -⟩
        exact h64 hint

/-- A signed number is read from the bytes that spell it, and from no others. -/
theorem readSigned_eq_ok {v : Int} : readSigned bytes = .ok (v, n) ↔
    ∃ front more, bytes = front ++ more ∧ n = front.length ∧ Signed front v := by
  rw [readSigned, readSignedFrom_eq_ok]
  simp only [Nat.zero_add, Nat.sub_zero, Int.natCast_zero, Int.zero_add, Int.pow_zero, Int.mul_one]
  constructor
  · rintro ⟨front, more, hsplit, hnumber, hn, rfl, hint, hsign⟩
    exact ⟨front, more, hsplit, hn, hnumber, rfl, hint, hsign⟩
  · rintro ⟨front, more, hsplit, hn, hnumber, rfl, hint, hsign⟩
    exact ⟨front, more, hsplit, hnumber, hn, rfl, hint, hsign⟩

theorem Signed.read {v : Int} (h : Signed front v) (more : List UInt8) :
    readSigned (front ++ more) = .ok (v, front.length) :=
  readSigned_eq_ok.mpr ⟨front, more, rfl, rfl, h⟩

theorem signed_encode {v : Int} (hv : IsInt64 v) : Signed (encodeSigned v) v := by
  obtain ⟨front, more, hsplit, hlength, hfront⟩ := readSigned_eq_ok.mp (readSigned_encode hv [])
  rwa [(List.append_inj hsplit hlength).1]

end TypedWire.Leb128
