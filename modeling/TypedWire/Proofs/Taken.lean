import TypedWire.Proofs.Reader

/-! What a reader that ends well has taken, whatever it was given: how many bytes at least, and of what
    kind the result is. -/

namespace TypedWire

namespace Leb128

theorem isNumber_take : ∀ {bytes : List UInt8} {n : Nat}, readLength bytes = .ok n →
    IsNumber (bytes.take n) ∧ 1 ≤ n
  | [], n, h => by simp [readLength, length?] at h
  | b :: rest, n, h => by
    rw [readLength, length?] at h
    split at h
    · next k hk =>
      obtain rfl : k = n := Except.ok.inj h
      split at hk
      · next hc =>
        rw [Option.map_eq_some_iff] at hk
        obtain ⟨m, hm, rfl⟩ := hk
        have hrest : readLength rest = .ok m := by rw [readLength, hm]
        refine ⟨?_, by omega⟩
        rw [List.take_succ_cons, isNumber_cons, if_pos hc]
        exact (isNumber_take hrest).1
      · next hc =>
        obtain rfl : 1 = k := Option.some.inj hk
        exact ⟨isNumber_cons.mpr (by rw [if_neg hc, List.take_zero]), Nat.le_refl 1⟩
    · exact absurd h (by simp)

theorem readUnsignedFrom_length : ∀ {bytes : List UInt8} {place value v n : Nat},
    readUnsignedFrom place value bytes = .ok (v, n) → place + 1 ≤ n
  | [], _, _, _, _, h => by simp [readUnsignedFrom] at h
  | b :: rest, place, value, v, n, h => by
    rw [readUnsignedFrom] at h
    split at h
    · exact absurd h (by simp)
    split at h
    · have := readUnsignedFrom_length h
      omega
    · simp only [Except.ok.injEq, Prod.mk.injEq] at h
      omega

end Leb128

theorem Fixed.width_pos (f : Fixed) : 1 ≤ f.width := by
  cases f <;> decide

namespace Reader

open TypedWire.Action

/-- Where `x` ends well, it has taken `least` bytes at least, and has given what `post` asks for. -/
def Gives {α : Type} (x : Action Reader α) (least : Nat) (post : α → Prop) : Prop :=
  ∀ r a r', x r = .ok a r' → r.offset + least ≤ r'.offset ∧ post a

variable {α β : Type} {x : Action Reader α} {f : α → Action Reader β} {a : α} {k m : Nat}
variable {post : α → Prop} {postB : β → Prop}

theorem Gives.runs {r : Reader} (h : Gives x k post) :
    Runs x r (fun a r' => r.offset + k ≤ r'.offset ∧ post a) fun _ _ => True := by
  cases hx : x r with
  | ok a r' => exact runs_of_ok hx (h r a r' hx)
  | error e r' => exact runs_of_error hx trivial

theorem gives_pure (h : post a) : Gives (pure a) 0 post := by
  intro r b r' hr
  obtain ⟨rfl, rfl⟩ := pure_eq_ok.mp hr
  exact ⟨Nat.le_refl _, h⟩

theorem gives_fail {e : Fault} : Gives (fail e : Action Reader α) k post :=
  fun _ _ _ h => absurd h fail_eq_ok

theorem gives_fail_bind {e : Fault} : Gives (fail e >>= f) k postB := by
  intro r b r' hr
  obtain ⟨_, _, hfail, -⟩ := bind_eq_ok.mp hr
  exact absurd hfail fail_eq_ok

theorem Gives.mono {post' : α → Prop} (h : Gives x k post) (hk : m ≤ k)
    (hpost : ∀ a, post a → post' a) : Gives x m post' := by
  intro r a r' hr
  obtain ⟨hle, ha⟩ := h r a r' hr
  exact ⟨by omega, hpost a ha⟩

theorem Gives.zero (h : Gives x k post) : Gives x 0 post := h.mono (Nat.zero_le k) fun _ => id

/-- What follows takes no bytes back. -/
theorem Gives.bind (h : Gives x k post) (hf : ∀ a, post a → Gives (f a) 0 postB) :
    Gives (x >>= f) k postB := by
  intro r b r' hr
  obtain ⟨a, r1, hx, hfa⟩ := bind_eq_ok.mp hr
  obtain ⟨hk, ha⟩ := h r a r1 hx
  obtain ⟨hle, hb⟩ := hf a ha r1 b r' hfa
  exact ⟨by omega, hb⟩

theorem gives_next {read : List UInt8 → Except Fault (α × Nat)}
    (h : ∀ bytes a n, read bytes = .ok (a, n) → k ≤ n ∧ post a) : Gives (next read) k post := by
  intro r a r' hr
  unfold next at hr
  split at hr
  · exact absurd hr (by simp)
  split at hr
  · next bytes _ _ b n hread =>
    obtain ⟨hn, hb⟩ := h bytes b n hread
    simp only [EStateM.Result.ok.injEq] at hr
    obtain ⟨rfl, rfl⟩ := hr
    exact ⟨Nat.add_le_add_left hn _, hb⟩
  · exact absurd hr (by simp)

theorem gives_byte : Gives byte 1 fun _ => True := by
  refine gives_next fun bytes b n h => ?_
  cases bytes with
  | nil => exact absurd h (by simp)
  | cons c rest =>
    simp only [Except.ok.injEq, Prod.mk.injEq] at h
    exact ⟨by omega, trivial⟩

theorem gives_unsigned : Gives unsigned 1 fun _ => True :=
  gives_next fun _ _ _ h => ⟨by have := Leb128.readUnsignedFrom_length h; omega, trivial⟩

theorem gives_bytes (n : Nat) : Gives (bytes n) n fun front => front.length = n := by
  refine gives_next fun unread front k h => ?_
  dsimp only at h
  split at h
  · next hlength =>
    simp only [Except.ok.injEq, Prod.mk.injEq] at h
    obtain ⟨rfl, rfl⟩ := h
    exact ⟨Nat.le_refl _, hlength⟩
  · exact absurd h (by simp)

theorem gives_number : Gives number 1 Leb128.IsNumber := by
  refine gives_next fun unread front k h => ?_
  simp only [Except.bind_eq_ok, Except.pure_eq_ok, Prod.mk.injEq] at h
  obtain ⟨n, hn, rfl, rfl⟩ := h
  exact (Leb128.isNumber_take hn).symm

theorem gives_fixed (kind : Fixed) : Gives (fixed kind) 1 fun n => n.kind = kind :=
  Gives.bind ((gives_bytes kind.width).mono kind.width_pos fun _ => id) fun _ _ => gives_pure rfl

/-! ### Payloads -/

theorem gives_text : Gives text 1 fun _ => True := by
  refine gives_unsigned.bind fun length _ => (gives_bytes length).zero.bind fun bytes _ => ?_
  cases utf8? bytes with
  | some text => exact gives_pure trivial
  | none => exact gives_fail

theorem gives_principalBody : Gives principalBody 1 fun bytes => bytes.length ≤ maxPrincipal := by
  refine gives_unsigned.bind fun length _ => ?_
  split
  · exact gives_fail_bind
  · next hle => exact (gives_bytes length).mono (Nat.zero_le _) fun bytes hlength => by omega

theorem gives_principal : Gives principal 1 fun bytes => bytes.length ≤ maxPrincipal := by
  refine gives_byte.bind fun b _ => ?_
  split
  · exact gives_principalBody.zero
  · exact gives_fail_bind

theorem gives_referenceFlag : Gives referenceFlag 1 fun _ => True := by
  refine gives_byte.bind fun b _ => ?_
  split
  · exact gives_fail
  · exact gives_pure trivial
  · exact gives_fail

theorem gives_service : Gives service 1 fun bytes => bytes.length ≤ maxPrincipal :=
  gives_referenceFlag.bind fun _ _ => gives_principalBody.zero

theorem gives_func : Gives func 1 fun (bytes, _) => bytes.length ≤ maxPrincipal :=
  gives_referenceFlag.bind fun _ _ => gives_service.zero.bind fun _ hbytes =>
    gives_text.zero.bind fun _ _ => gives_pure hbytes

end Reader

end TypedWire
