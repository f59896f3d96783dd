import TypedWire.Proofs.Number.Numeral
import TypedWire.Proofs.Number.Word

/-! The verdict of the readers of 64-bit numbers on any bytes: which they accept, which are too large and
    which end too soon. Every string of bytes has an end mark, a byte after which no other follows, or has
    none; and what is read up to the first one, or to the end, decides. -/

namespace TypedWire.Leb128

variable {b c : UInt8} {bytes front rest : List UInt8} {n place value : Nat}

/-- After every byte another follows. -/
def Endless (bytes : List UInt8) : Prop := ∀ b ∈ bytes, continues b = true

/-- The `n`-th byte is the first after which no other follows. -/
def EndsAt (bytes : List UInt8) (n : Nat) : Prop :=
  ∃ front last rest, bytes = front ++ last :: rest ∧ Endless front ∧ continues last = false ∧
    n = front.length + 1

/-! ### Where the number in front ends -/

theorem endless_cons : Endless (b :: bytes) ↔ continues b = true ∧ Endless bytes := List.forall_mem_cons

theorem isNumber_iff : IsNumber bytes ↔
    ∃ front last, bytes = front ++ [last] ∧ Endless front ∧ continues last = false := by
  induction bytes with
  | nil => simp [IsNumber, length?]
  | cons b bytes ih =>
    rw [isNumber_cons]
    split
    · next hc =>
      rw [ih]
      constructor
      · rintro ⟨front, last, rfl, hfront, hlast⟩
        exact ⟨b :: front, last, rfl, endless_cons.mpr ⟨hc, hfront⟩, hlast⟩
      · rintro ⟨front, last, hsplit, hfront, hlast⟩
        cases front with
        | nil =>
          obtain ⟨rfl, -⟩ := List.cons.inj hsplit
          exact absurd hc (Bool.eq_false_iff.mp hlast)
        | cons a front =>
          obtain ⟨-, rfl⟩ := List.cons.inj hsplit
          exact ⟨front, last, rfl, (endless_cons.mp hfront).2, hlast⟩
    · next hc =>
      constructor
      · rintro rfl
        exact ⟨[], b, rfl, by simp [Endless], Bool.eq_false_iff.mpr hc⟩
      · rintro ⟨front, last, hsplit, hfront, hlast⟩
        cases front with
        | nil => exact (List.cons.inj hsplit).2
        | cons a front =>
          obtain ⟨rfl, -⟩ := List.cons.inj hsplit
          exact absurd (endless_cons.mp hfront).1 hc

/-- The bytes up to the end mark are one number, which is in front of the others. -/
theorem endsAt_iff : EndsAt bytes n ↔ ∃ front rest, bytes = front ++ rest ∧ n = front.length ∧
    IsNumber front := by
  simp only [isNumber_iff]
  constructor
  · rintro ⟨front, last, rest, rfl, hfront, hlast, rfl⟩
    exact ⟨front ++ [last], rest, by simp, by simp, front, last, rfl, hfront, hlast⟩
  · rintro ⟨_, rest, rfl, rfl, front, last, rfl, hfront, hlast⟩
    exact ⟨front, last, rest, by simp, hfront, hlast, by simp⟩

theorem endsAt_or_endless : ∀ bytes : List UInt8, (∃ n, EndsAt bytes n) ∨ Endless bytes
  | [] => .inr (by simp [Endless])
  | b :: bytes => by
    cases hc : continues b with
    | false => exact .inl ⟨1, [], b, bytes, rfl, by simp [Endless], hc, rfl⟩
    | true =>
      obtain ⟨n, front, last, rest, rfl, hfront, hlast, -⟩ | hbytes := endsAt_or_endless bytes
      · exact .inl ⟨_, b :: front, last, rest, rfl, endless_cons.mpr ⟨hc, hfront⟩, hlast, rfl⟩
      · exact .inr (endless_cons.mpr ⟨hc, hbytes⟩)

theorem EndsAt.not_endless (h : EndsAt bytes n) : ¬ Endless bytes := by
  obtain ⟨front, last, rest, rfl, -, hlast, -⟩ := h
  exact fun hall => absurd (hall last (by simp)) (Bool.eq_false_iff.mp hlast)

theorem EndsAt.unique {m : Nat} (h : EndsAt bytes n) (h' : EndsAt bytes m) : n = m := by
  obtain ⟨front, rest, hsplit, rfl, hnumber⟩ := endsAt_iff.mp h
  obtain ⟨front', rest', hsplit', rfl, hnumber'⟩ := endsAt_iff.mp h'
  have hlength := length?_append hnumber rest
  rw [← hsplit, hsplit', length?_append hnumber' rest'] at hlength
  exact (Option.some.inj hlength).symm

/-! ### Bounds of what the groups spell -/

theorem unsignedValue_lt : ∀ bytes : List UInt8, unsignedValue bytes < 128 ^ bytes.length
  | [] => by decide
  | b :: bytes => by
    have hrest := unsignedValue_lt bytes
    have hgroup := group_lt (b := b)
    rw [unsignedValue, List.length_cons, Nat.pow_succ]
    omega

theorem signedValue_append : ∀ front : List UInt8, signedValue (front ++ [c]) =
    unsignedValue front + 128 ^ front.length * signedValue [c]
  | [] => by simp [unsignedValue]
  | b :: front => by
    have hcons : signedValue (b :: (front ++ [c])) = group b + 128 * signedValue (front ++ [c]) := by
      cases front <;> rfl
    rw [List.cons_append, hcons, signedValue_append front, unsignedValue, List.length_cons]
    push_cast
    ring

/-- A last byte says nothing but the sign exactly if its own number is zero or minus one. -/
theorem signedValue_last (hc : continues c = false) :
    (c = 0x00 ∨ c = 0x7f) ↔ signedValue [c] = 0 ∨ signedValue [c] = -1 := by
  have hlt : c.toNat < 128 := by simpa [continues] using hc
  rw [← UInt8.toNat_inj, ← UInt8.toNat_inj, signedValue, signed, group, Nat.mod_eq_of_lt hlt]
  change c.toNat = 0 ∨ c.toNat = 127 ↔ _
  split
  · next h =>
    have := of_decide_eq_true h
    omega
  · next h =>
    have := of_decide_eq_false (Bool.eq_false_iff.mpr h)
    omega

/-- Of the numbers that have 64 bits, those have a byte of pure sign at most after ten bytes that have
    eleven bytes at most. -/
theorem forall_drop_sign (hnumber : IsNumber bytes) (hint : IsInt64 (signedValue bytes)) :
    (∀ b ∈ bytes.drop 10, b = 0x00 ∨ b = 0x7f) ↔ bytes.length ≤ 11 := by
  obtain ⟨front, last, rfl, hfront, hlast⟩ := isNumber_iff.mp hnumber
  rw [List.length_append, List.length_singleton]
  constructor
  · -- an earlier byte after the tenth would be followed by another
    intro hsign
    by_contra hlong
    have hmem : front[10] ∈ (front ++ [last]).drop 10 := by
      rw [List.drop_append_of_le_length (by omega), List.drop_eq_getElem_cons (by omega)]
      exact List.mem_append_left _ List.mem_cons_self
    have hmore := hfront _ (List.getElem_mem (show 10 < front.length by omega))
    exact absurd (continues_sign (hsign _ hmem)) (by simp [hmore])
  · intro hle b hb
    have hten : front.length = 10 ∨ front.length < 10 := by omega
    rcases hten with hten | hten
    · rw [← hten, List.drop_left, List.mem_singleton] at hb
      subst hb
      have hlt := unsignedValue_lt front
      rw [hten] at hlt
      rw [signedValue_append, hten, IsInt64] at hint
      rw [signedValue_last hlast]
      omega
    · rw [List.drop_eq_nil_of_le (by simp; omega)] at hb
      exact absurd hb (List.not_mem_nil)

/-! ### Unsigned numbers -/

theorem readUnsigned_ok_iff {v : Nat} : readUnsigned bytes = .ok (v, n) ↔
    EndsAt bytes n ∧ v = unsignedValue (bytes.take n) ∧ v < 2 ^ 64 := by
  rw [readUnsigned_eq_ok, endsAt_iff]
  constructor
  · rintro ⟨front, rest, rfl, rfl, hnumber, hvalue, hlt⟩
    exact ⟨⟨front, rest, rfl, rfl, hnumber⟩, by rw [List.take_left, hvalue], hlt⟩
  · rintro ⟨⟨front, rest, rfl, rfl, hnumber⟩, hvalue, hlt⟩
    rw [List.take_left] at hvalue
    exact ⟨front, rest, rfl, rfl, hnumber, hvalue.symm, hlt⟩

theorem readUnsignedFrom_truncated : ∀ {bytes : List UInt8} {place value : Nat}, value < 2 ^ 64 →
    (readUnsignedFrom place value bytes = .error .truncated ↔
      Endless bytes ∧ value + unsignedValue bytes * 128 ^ place < 2 ^ 64)
  | [], place, value, hvalue => by simp [readUnsignedFrom, Endless, unsignedValue, hvalue]
  | b :: bytes, place, value, hvalue => by
    have hcons : value + unsignedValue (b :: bytes) * 128 ^ place =
        value + group b * 128 ^ place + unsignedValue bytes * 128 ^ (place + 1) := by
      rw [unsignedValue]
      ring
    rw [readUnsignedFrom, endless_cons, hcons]
    split
    · next hbig => exact iff_of_false (by simp) fun h => by omega
    · next hsmall =>
      cases hc : continues b with
      | false => simp
      | true => simpa using readUnsignedFrom_truncated (Nat.lt_of_not_le hsmall)

theorem readUnsignedFrom_error {e : Fault} : ∀ {bytes : List UInt8} {place value : Nat},
    readUnsignedFrom place value bytes = .error e → e = .truncated ∨ e = .overflow
  | [], _, _, h => .inl (Except.error.inj h).symm
  | b :: bytes, place, value, h => by
    rw [readUnsignedFrom] at h
    split at h
    · exact .inr (Except.error.inj h).symm
    · split at h
      · exact readUnsignedFrom_error h
      · exact absurd h (by simp)

theorem readUnsigned_truncated_iff : readUnsigned bytes = .error .truncated ↔
    Endless bytes ∧ unsignedValue bytes < 2 ^ 64 := by
  rw [readUnsigned, readUnsignedFrom_truncated (by decide)]
  simp

theorem readUnsigned_overflow_iff : readUnsigned bytes = .error .overflow ↔
    (∃ n, EndsAt bytes n ∧ 2 ^ 64 ≤ unsignedValue (bytes.take n)) ∨
      Endless bytes ∧ 2 ^ 64 ≤ unsignedValue bytes := by
  constructor
  · intro h
    rcases endsAt_or_endless bytes with ⟨n, hn⟩ | hend
    · refine .inl ⟨n, hn, Nat.le_of_not_lt fun hlt => ?_⟩
      exact absurd (h.symm.trans (readUnsigned_ok_iff.mpr ⟨hn, rfl, hlt⟩)) (by simp)
    · refine .inr ⟨hend, Nat.le_of_not_lt fun hlt => ?_⟩
      exact absurd (h.symm.trans (readUnsigned_truncated_iff.mpr ⟨hend, hlt⟩)) (by simp)
  · intro h
    cases hread : readUnsigned bytes with
    | ok p =>
      obtain ⟨hn, hvalue, hlt⟩ := readUnsigned_ok_iff.mp hread
      rcases h with ⟨m, hm, hbig⟩ | ⟨hend, -⟩
      · rw [hm.unique hn] at hbig
        omega
      · exact absurd hend hn.not_endless
    | error e =>
      rcases readUnsignedFrom_error hread with rfl | rfl
      · obtain ⟨hend, hlt⟩ := readUnsigned_truncated_iff.mp hread
        rcases h with ⟨m, hm, -⟩ | ⟨-, hbig⟩
        · exact absurd hend hm.not_endless
        · omega
      · rfl

/-! ### Signed numbers -/

theorem readSigned_ok_iff {v : Int} : readSigned bytes = .ok (v, n) ↔
    EndsAt bytes n ∧ n ≤ 11 ∧ v = signedValue (bytes.take n) ∧ IsInt64 v := by
  rw [readSigned_eq_ok, endsAt_iff]
  constructor
  · rintro ⟨front, rest, rfl, rfl, hnumber, rfl, hint, hsign⟩
    exact ⟨⟨front, rest, rfl, rfl, hnumber⟩, (forall_drop_sign hnumber hint).mp hsign,
      by rw [List.take_left], hint⟩
  · rintro ⟨⟨front, rest, rfl, rfl, hnumber⟩, hle, hvalue, hint⟩
    rw [List.take_left] at hvalue
    subst hvalue
    exact ⟨front, rest, rfl, rfl, hnumber, rfl, hint, (forall_drop_sign hnumber hint).mpr hle⟩

theorem readSignedFrom_truncated : ∀ {bytes : List UInt8} {place value : Nat}, place ≤ 10 →
    (readSignedFrom place value bytes = .error .truncated ↔
      Endless bytes ∧ place + bytes.length ≤ 10)
  | [], place, value, hplace => by simp [readSignedFrom, Endless, hplace]
  | b :: bytes, place, value, hplace => by
    rw [readSignedFrom, endless_cons, List.length_cons]
    split
    · next hsign => exact iff_of_false (by simp) fun h => by omega
    · next hsign =>
      cases hc : continues b with
      | false =>
        rw [if_neg Bool.false_ne_true]
        refine iff_of_false ?_ (by simp)
        dsimp only
        generalize (if signed b then _ else _ : Int) = number
        split <;> simp
      | true =>
        have hmore : place + 1 ≤ 10 := lt_ten_of_continues hsign hc
        rw [if_pos rfl, readSignedFrom_truncated hmore, Nat.add_assoc, Nat.add_comm 1]
        simp

theorem readSignedFrom_error {e : Fault} : ∀ {bytes : List UInt8} {place value : Nat},
    readSignedFrom place value bytes = .error e → e = .truncated ∨ e = .overflow
  | [], _, _, h => .inl (Except.error.inj h).symm
  | b :: bytes, place, value, h => by
    rw [readSignedFrom] at h
    split at h
    · exact .inr (Except.error.inj h).symm
    · split at h
      · exact readSignedFrom_error h
      · dsimp only at h
        generalize (if signed b then _ else _ : Int) = number at h
        split at h
        · exact absurd h (by simp)
        · exact .inr (Except.error.inj h).symm

theorem readSigned_truncated_iff : readSigned bytes = .error .truncated ↔
    Endless bytes ∧ bytes.length ≤ 10 := by
  rw [readSigned, readSignedFrom_truncated (Nat.zero_le _), Nat.zero_add]

theorem readSigned_overflow_iff : readSigned bytes = .error .overflow ↔
    (∃ n, EndsAt bytes n ∧ (11 < n ∨ ¬ IsInt64 (signedValue (bytes.take n)))) ∨
      Endless bytes ∧ 10 < bytes.length := by
  constructor
  · intro h
    rcases endsAt_or_endless bytes with ⟨n, hn⟩ | hend
    · refine .inl ⟨n, hn, Decidable.or_iff_not_not_and_not.mpr fun hfine => ?_⟩
      have hok := readSigned_ok_iff.mpr ⟨hn, Nat.le_of_not_lt hfine.1, rfl, not_not.mp hfine.2⟩
      exact absurd (h.symm.trans hok) (by simp)
    · refine .inr ⟨hend, Nat.lt_of_not_le fun hle => ?_⟩
      exact absurd (h.symm.trans (readSigned_truncated_iff.mpr ⟨hend, hle⟩)) (by simp)
  · intro h
    cases hread : readSigned bytes with
    | ok p =>
      obtain ⟨hn, hle, hvalue, hint⟩ := readSigned_ok_iff.mp hread
      rcases h with ⟨m, hm, hbad⟩ | ⟨hend, -⟩
      · rw [hm.unique hn, ← hvalue] at hbad
        exact absurd hbad (not_or.mpr ⟨Nat.not_lt.mpr hle, not_not.mpr hint⟩)
      · exact absurd hend hn.not_endless
    | error e =>
      rcases readSignedFrom_error hread with rfl | rfl
      · obtain ⟨hend, hle⟩ := readSigned_truncated_iff.mp hread
        rcases h with ⟨m, hm, -⟩ | ⟨-, hlong⟩
        · exact absurd hend hm.not_endless
        · omega
      · rfl

/-! ### Both readers, on any bytes -/

/-- What the readers answer on any bytes. An unsigned number is accepted exactly if it ends and is below
    `2 ^ 64`; it is too large exactly if the groups up to its end, or all of them if there is none, reach
    `2 ^ 64`, and ends too soon otherwise. A signed number is accepted exactly if it ends within eleven
    bytes and has 64 bits; it ends too soon exactly if none of at most ten bytes ends it, and is too large
    otherwise. The loops on words answer the same and break no limit of a shift or a sum. -/
theorem readers_verdict (bytes : List UInt8) :
    ((∀ v n, readUnsigned bytes = .ok (v, n) ↔
        EndsAt bytes n ∧ v = unsignedValue (bytes.take n) ∧ v < 2 ^ 64) ∧
      (readUnsigned bytes = .error .overflow ↔
        (∃ n, EndsAt bytes n ∧ 2 ^ 64 ≤ unsignedValue (bytes.take n)) ∨
          Endless bytes ∧ 2 ^ 64 ≤ unsignedValue bytes) ∧
      (readUnsigned bytes = .error .truncated ↔ Endless bytes ∧ unsignedValue bytes < 2 ^ 64)) ∧
    ((∀ v n, readSigned bytes = .ok (v, n) ↔
        EndsAt bytes n ∧ n ≤ 11 ∧ v = signedValue (bytes.take n) ∧ IsInt64 v) ∧
      (readSigned bytes = .error .truncated ↔ Endless bytes ∧ bytes.length ≤ 10) ∧
      (readSigned bytes = .error .overflow ↔
        (∃ n, EndsAt bytes n ∧ (11 < n ∨ ¬ IsInt64 (signedValue (bytes.take n)))) ∨
          Endless bytes ∧ 10 < bytes.length)) ∧
    Word.readUnsigned? bytes = some ((readUnsigned bytes).map fun p => (.ofNat 64 p.1, p.2)) ∧
    Word.readSigned? bytes = some ((readSigned bytes).map fun p => (.ofInt 64 p.1, p.2)) :=
  ⟨⟨fun _ _ => readUnsigned_ok_iff, readUnsigned_overflow_iff, readUnsigned_truncated_iff⟩,
    ⟨fun _ _ => readSigned_ok_iff, readSigned_truncated_iff, readSigned_overflow_iff⟩,
    Word.readUnsigned?_eq bytes, Word.readSigned?_eq bytes⟩

/-- Ten bytes hold the largest number, and a larger one does not end too soon. -/
example : readUnsigned (List.replicate 9 0xff ++ [0x01]) = .ok (2 ^ 64 - 1, 10) ∧
    readUnsigned (List.replicate 9 0xff ++ [0x82]) = .error .overflow := by decide

end TypedWire.Leb128
