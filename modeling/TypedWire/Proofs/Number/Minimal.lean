import TypedWire.Proofs.Number.Verdict

/-! The encodings of 64-bit numbers are the shortest that are read as them, and have ten bytes at most.
    So a writer into a buffer fails only if there is too little room, and one that has ten bytes of room
    for each number never loses one. -/

namespace TypedWire.Leb128

variable {α : Type} {bytes number buffer : List UInt8} {k n : Nat}

/-- `encoded` is read as `v`, whatever follows, and nothing shorter is; it has ten bytes at most. -/
structure Minimal (read : List UInt8 → Except Fault (α × Nat)) (encoded : List UInt8) (v : α) : Prop where
  le_ten : encoded.length ≤ 10
  reads : ∀ rest, read (encoded ++ rest) = .ok (v, encoded.length)
  least : ∀ bytes n, read bytes = .ok (v, n) → encoded.length ≤ n

/-- `write` puts `encoded` in front and leaves the rest of the buffer alone. Where there is no room it
    fails, and has filled the buffer with what there was room for. -/
structure Writes (write : List UInt8 → Except Fault Nat × List UInt8) (encoded : List UInt8) : Prop where
  room : ∀ buffer, encoded.length ≤ buffer.length →
    write buffer = (.ok encoded.length, encoded ++ buffer.drop encoded.length)
  full : ∀ buffer, buffer.length < encoded.length →
    write buffer = (.error .overflow, encoded.take buffer.length)

/-! ### Nothing shorter is read -/

theorem EndsAt.exists_succ (h : EndsAt bytes n) : ∃ front last, bytes.take n = front ++ [last] ∧
    n = front.length + 1 := by
  obtain ⟨front, last, rest, rfl, -, -, rfl⟩ := h
  refine ⟨front, last, ?_, rfl⟩
  rw [List.append_cons]
  exact List.take_left' (by simp)

theorem encodeUnsigned_least {v : Nat} (h : readUnsigned bytes = .ok (v, n)) :
    (encodeUnsigned v).length ≤ n := by
  obtain ⟨hn, rfl, -⟩ := readUnsigned_ok_iff.mp h
  obtain ⟨front, last, htake, rfl⟩ := hn.exists_succ
  have hlt := unsignedValue_lt (bytes.take (front.length + 1))
  rw [htake, List.length_append, List.length_singleton] at hlt
  rw [htake]
  exact length_encodeUnsigned front.length hlt

theorem signedValue_bounds (front : List UInt8) (last : UInt8) :
    -(64 * 128 ^ front.length) ≤ signedValue (front ++ [last]) ∧
      signedValue (front ++ [last]) < 64 * 128 ^ front.length := by
  have hlt : (unsignedValue front : Int) < 128 ^ front.length := mod_cast unsignedValue_lt front
  have hgroup := group_lt (b := last)
  have hlast : -64 ≤ signedValue [last] ∧ signedValue [last] ≤ 63 := by
    rw [signedValue, signed]
    split
    · next h =>
      have := of_decide_eq_true h
      omega
    · next h =>
      have := of_decide_eq_false (Bool.eq_false_iff.mpr h)
      omega
  rw [signedValue_append]
  have hpos : (0 : Int) ≤ 128 ^ front.length := Int.pow_nonneg (by decide)
  have hlow := Int.mul_le_mul_of_nonneg_left hlast.1 hpos
  have hhigh := Int.mul_le_mul_of_nonneg_left hlast.2 hpos
  constructor <;> omega

theorem encodeSigned_least {v : Int} (h : readSigned bytes = .ok (v, n)) :
    (encodeSigned v).length ≤ n := by
  obtain ⟨hn, -, rfl, -⟩ := readSigned_ok_iff.mp h
  obtain ⟨front, last, htake, rfl⟩ := hn.exists_succ
  obtain ⟨hlow, hhigh⟩ := signedValue_bounds front last
  rw [htake]
  exact (encodeSigned_isNumber front.length hlow hhigh).2

theorem minimal_unsigned (v : BitVec 64) : Minimal readUnsigned (encodeUnsigned v.toNat) v.toNat where
  le_ten := length_encodeUnsigned 9 (v.isLt.trans (by decide))
  reads := readUnsigned_encode v.isLt
  least _ _ := encodeUnsigned_least

theorem minimal_signed (v : BitVec 64) : Minimal readSigned (encodeSigned v.toInt) v.toInt where
  le_ten :=
    (encodeSigned_isNumber 9 (by have := v.le_toInt; omega) (by have := v.toInt_lt; omega)).2
  reads := readSigned_encode ⟨v.le_toInt, v.toInt_lt⟩
  least _ _ := encodeSigned_least

/-! ### Writing into a buffer -/

theorem place_of_le : ∀ {number buffer : List UInt8}, number.length ≤ buffer.length →
    place number buffer = (.ok number.length, number ++ buffer.drop number.length)
  | [], _, _ => rfl
  | b :: number, [], h => absurd h (by simp)
  | b :: number, c :: buffer, h => by
    rw [place, place_of_le (Nat.le_of_succ_le_succ h)]
    rfl

theorem place_of_lt : ∀ {number buffer : List UInt8}, buffer.length < number.length →
    place number buffer = (.error .overflow, number.take buffer.length)
  | [], _, h => absurd h (Nat.not_lt_zero _)
  | b :: number, [], _ => rfl
  | b :: number, c :: buffer, h => by
    rw [place, place_of_lt (Nat.lt_of_succ_lt_succ h)]
    rfl

theorem writes_place (number : List UInt8) : Writes (place number) number :=
  ⟨fun _ => place_of_le, fun _ => place_of_lt⟩

/-- A writer with ten bytes of room loses nothing. -/
theorem Writes.written {write : List UInt8 → Except Fault Nat × List UInt8} (h : Writes write number)
    (hlength : number.length ≤ 10) : Word.written write = number := by
  have hroom : number.length ≤ (List.replicate 10 (0 : UInt8)).length := by simpa using hlength
  rw [Word.written, h.room _ hroom]
  exact List.take_left

/-- The encodings of an unsigned and of a signed word: they are read back whatever follows, no shorter
    bytes are read as the same number, and they have ten bytes at most. The loops that write words put
    them in front of a buffer, or fill it if there is too little room; with ten bytes of room they always
    write the whole number. -/
theorem encode_minimal (v : BitVec 64) :
    (Minimal readUnsigned (encodeUnsigned v.toNat) v.toNat ∧
      Writes (Word.writeUnsigned v) (encodeUnsigned v.toNat) ∧
      Word.written (Word.writeUnsigned v) = encodeUnsigned v.toNat) ∧
    (Minimal readSigned (encodeSigned v.toInt) v.toInt ∧
      Writes (Word.writeSigned v) (encodeSigned v.toInt) ∧
      Word.written (Word.writeSigned v) = encodeSigned v.toInt) := by
  have hunsigned : Writes (Word.writeUnsigned v) (encodeUnsigned v.toNat) := by
    rw [funext fun buffer => Word.writeUnsigned_eq buffer v]
    exact writes_place _
  have hsigned : Writes (Word.writeSigned v) (encodeSigned v.toInt) := by
    rw [funext fun buffer => Word.writeSigned_eq buffer v]
    exact writes_place _
  exact ⟨⟨minimal_unsigned v, hunsigned, hunsigned.written (minimal_unsigned v).le_ten⟩,
    minimal_signed v, hsigned, hsigned.written (minimal_signed v).le_ten⟩

end TypedWire.Leb128
