import TypedWire.Proofs.Number.Verdict

/-! A natural number that is widened to an integer stays the same. The bytes mean the same read with a sign
    and without one, unless bit 6 of the last is set; then a byte that says nothing but the sign is put
    behind them. Padding is kept as it is. -/

namespace TypedWire.Leb128

variable {b : UInt8} {bytes front rest wide : List UInt8}

/-! ### What the groups spell, from the last one on -/

theorem unsignedValue_append (front rest : List UInt8) :
    unsignedValue (front ++ rest) = unsignedValue front + 128 ^ front.length * unsignedValue rest := by
  induction front with
  | nil => simp [unsignedValue]
  | cons b front ih =>
    rw [List.cons_append, unsignedValue, unsignedValue, ih, List.length_cons, Nat.pow_succ]
    ring

/-- The sign takes one more group's worth away. -/
theorem signedValue_concat (front : List UInt8) (b : UInt8) : signedValue (front ++ [b]) =
    if signed b then (unsignedValue (front ++ [b]) : Int) - 128 ^ (front.length + 1)
    else unsignedValue (front ++ [b]) := by
  have hlast : unsignedValue [b] = group b := by simp [unsignedValue]
  rw [signedValue_append, unsignedValue_append, hlast, signedValue]
  split
  · push_cast
    ring
  · push_cast
    ring

/-! ### Widening -/

theorem widen_concat (front : List UInt8) (b : UInt8) :
    widen (front ++ [b]) = .ok (front ++ if signed b then [b ||| 0x80, 0x00] else [b]) := by
  induction front with
  | nil => rfl
  | cons a front ih =>
    have hcons : widen (a :: (front ++ [b])) = (widen (front ++ [b])).map (a :: ·) := by
      cases front <;> rfl
    rw [List.cons_append, hcons, ih]
    rfl

theorem group_or : group (b ||| 0x80) = group b := by
  have hor : (b ||| 0x80).toNat = b.toNat ||| 2 ^ 7 := UInt8.toNat_or b 0x80
  have hmod : (b.toNat ||| 2 ^ 7) % 2 ^ 7 = b.toNat % 2 ^ 7 := by
    rw [Nat.or_mod_two_pow, Nat.mod_self, Nat.or_zero]
  rw [group, group, hor]
  exact hmod

/-- What widening gives spells the same number, read with a sign. -/
theorem signedValue_widen (h : widen bytes = .ok wide) : signedValue wide = unsignedValue bytes := by
  rcases List.eq_nil_or_concat bytes with rfl | ⟨front, b, rfl⟩
  · exact absurd h (by simp [widen])
  rw [List.concat_eq_append] at h ⊢
  rw [widen_concat, Except.ok.injEq] at h
  subst h
  split
  · next hs =>
    have hsplit : front ++ [b ||| 0x80, 0x00] = (front ++ [b ||| 0x80]) ++ [0x00] := by simp
    have hzero : unsignedValue [b ||| 0x80, 0x00] = unsignedValue [b] := by
      rw [unsignedValue, group_or]
      rfl
    rw [hsplit, signedValue_concat, if_neg (by decide), ← hsplit, unsignedValue_append, hzero,
      ← unsignedValue_append]
  · next hs => rw [signedValue_concat, if_neg hs]

/-- Widening adds at most one byte, and none to a number below half of what its groups can spell. -/
theorem length_widen (h : widen bytes = .ok wide) :
    bytes.length ≤ wide.length ∧ wide.length ≤ bytes.length + 1 ∧
      (2 * unsignedValue bytes < 128 ^ bytes.length → wide.length = bytes.length) := by
  rcases List.eq_nil_or_concat bytes with rfl | ⟨front, b, rfl⟩
  · exact absurd h (by simp [widen])
  rw [List.concat_eq_append] at h ⊢
  rw [widen_concat, Except.ok.injEq] at h
  subst h
  split
  · next hs =>
    refine ⟨by simp, by simp, fun hsmall => ?_⟩
    have hgroup : 64 ≤ group b := of_decide_eq_true hs
    have hmul := Nat.mul_le_mul_left (128 ^ front.length) hgroup
    rw [unsignedValue_append, List.length_append, List.length_singleton, Nat.pow_succ] at hsmall
    simp only [unsignedValue, Nat.mul_zero, Nat.add_zero] at hsmall
    omega
  · exact ⟨by simp, by simp, fun _ => rfl⟩

end TypedWire.Leb128
