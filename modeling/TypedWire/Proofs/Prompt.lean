import TypedWire.Proofs.Action
import TypedWire.Reader

/-! Looks at the bytes in front. A look goes by the bytes that it takes and by no others; where there are
    too few it says so, whatever it would have found in them. All readers are put together of such
    looks. -/

namespace TypedWire.Reader

open TypedWire.Action

variable {α : Type} {r : Reader} {n : Nat}

/-- A look at the bytes in front finds the same whatever follows them, unless it finds them at an
    end. -/
def Prompt (read : List UInt8 → Except Fault (α × Nat)) : Prop :=
  ∀ bytes more, read bytes = .error .truncated ∨
    read (bytes ++ more) = read bytes ∧ ∀ a n, read bytes = .ok (a, n) → n ≤ bytes.length

section Next

variable {read : List UInt8 → Except Fault (α × Nat)} {front : List UInt8}

theorem next_eq_ok {a : α} (hr : r.unread = some front) (h : read front = .ok (a, n)) :
    next read r = .ok a ⟨r.offset + n, some (front.drop n)⟩ := by
  simp only [next, hr, h]

theorem next_eq_error {e : Fault} (hr : r.unread = some front) (h : read front = .error e) :
    next read r = .error e r := by
  simp only [next, hr, h]

/-- A look takes no more bytes than there are. -/
theorem Prompt.le_length {a : α} (hprompt : Prompt read) (h : read front = .ok (a, n)) :
    n ≤ front.length := by
  rcases hprompt front [] with hcut | ⟨-, hwithin⟩
  · exact absurd (hcut.symm.trans h) (by simp)
  · exact hwithin a n h

end Next

/-! ### Numbers and bytes -/

theorem readUnsignedFrom_prompt : ∀ (place value : Nat) (bytes more : List UInt8),
    Leb128.readUnsignedFrom place value bytes = .error .truncated ∨
    Leb128.readUnsignedFrom place value (bytes ++ more) = Leb128.readUnsignedFrom place value bytes ∧
      ∀ a n, Leb128.readUnsignedFrom place value bytes = .ok (a, n) → n ≤ place + bytes.length
  | _, _, [], _ => .inl rfl
  | place, value, b :: rest, more => by
    rw [List.cons_append]
    unfold Leb128.readUnsignedFrom
    dsimp only
    split
    · exact .inr ⟨rfl, by simp⟩
    · split
      · rcases readUnsignedFrom_prompt (place + 1) (value + Leb128.group b * 128 ^ place) rest more with
          hcut | ⟨hsame, hwithin⟩
        · exact .inl hcut
        · refine .inr ⟨hsame, fun a n h => ?_⟩
          have := hwithin a n h
          rw [List.length_cons]
          omega
      · refine .inr ⟨rfl, fun a n h => ?_⟩
        rw [Except.ok.injEq, Prod.mk.injEq] at h
        rw [List.length_cons]
        omega

theorem prompt_unsigned : Prompt Leb128.readUnsigned := fun bytes more => by
  have h := readUnsignedFrom_prompt 0 0 bytes more
  rwa [Nat.zero_add] at h

theorem readSignedFrom_prompt : ∀ (place value : Nat) (bytes more : List UInt8),
    Leb128.readSignedFrom place value bytes = .error .truncated ∨
    Leb128.readSignedFrom place value (bytes ++ more) = Leb128.readSignedFrom place value bytes ∧
      ∀ a n, Leb128.readSignedFrom place value bytes = .ok (a, n) → n ≤ place + bytes.length
  | _, _, [], _ => .inl rfl
  | place, value, b :: rest, more => by
    rw [List.cons_append]
    unfold Leb128.readSignedFrom
    dsimp only
    split
    · exact .inr ⟨rfl, by simp⟩
    · split
      · rcases readSignedFrom_prompt (place + 1) (value + Leb128.group b * 128 ^ place) rest more with
          hcut | ⟨hsame, hwithin⟩
        · exact .inl hcut
        · refine .inr ⟨hsame, fun a n h => ?_⟩
          have := hwithin a n h
          rw [List.length_cons]
          omega
      · refine .inr ⟨rfl, fun a n h => ?_⟩
        have hlast : ∀ number : Int, (if Leb128.IsInt64 number then Except.ok (number, place + 1)
            else Except.error Fault.overflow) = .ok (a, n) → n = place + 1 := by
          intro number h
          split at h
          · rw [Except.ok.injEq, Prod.mk.injEq] at h
            exact h.2.symm
          · exact absurd h (by simp)
        have hn := hlast _ h
        rw [List.length_cons]
        omega

theorem prompt_signed : Prompt Leb128.readSigned := fun bytes more => by
  have h := readSignedFrom_prompt 0 0 bytes more
  rwa [Nat.zero_add] at h

theorem length?_le : ∀ {bytes : List UInt8} {n : Nat}, Leb128.length? bytes = some n →
    n ≤ bytes.length ∧ ∀ more, Leb128.length? (bytes ++ more) = some n
  | [], _, h => absurd h (by simp [Leb128.length?])
  | b :: rest, n, h => by
    rw [Leb128.length?] at h
    simp only [List.cons_append, Leb128.length?, List.length_cons]
    split at h
    · next hmore =>
      rw [Option.map_eq_some_iff] at h
      obtain ⟨m, hm, rfl⟩ := h
      obtain ⟨hle, happend⟩ := length?_le hm
      exact ⟨by omega, fun more => by rw [if_pos hmore, happend, Option.map_some]⟩
    · next hlast =>
      obtain rfl := Option.some.inj h
      exact ⟨by omega, fun more => if_neg hlast⟩

theorem prompt_number : Prompt fun unread => do
    let n ← Leb128.readLength unread
    return (unread.take n, n) := by
  intro front more
  dsimp only
  cases hlength : Leb128.length? front with
  | none => exact .inl (by simp only [Leb128.readLength, hlength, Except.bind_eq_error, true_or])
  | some n =>
    obtain ⟨hle, happend⟩ := length?_le hlength
    have hfront : Leb128.readLength front = .ok n := by simp only [Leb128.readLength, hlength]
    have hboth : Leb128.readLength (front ++ more) = .ok n := by
      simp only [Leb128.readLength, happend more]
    rw [hfront, hboth]
    refine .inr ⟨?_, fun a k h => ?_⟩
    · show Except.ok _ = Except.ok _
      rw [List.take_append_of_le_length hle]
    · obtain ⟨-, rfl⟩ := Prod.mk.inj (Except.ok.inj h)
      exact hle

theorem prompt_bytes (n : Nat) : Prompt fun unread =>
    if (unread.take n).length = n then .ok (unread.take n, n) else .error .truncated := by
  intro front more
  dsimp only
  by_cases hn : n ≤ front.length
  · refine .inr ⟨by rw [List.take_append_of_le_length hn], fun a k h => ?_⟩
    split at h
    · rw [Except.ok.injEq, Prod.mk.injEq] at h
      omega
    · exact absurd h (by simp)
  · have hcut : (front.take n).length ≠ n := by
      rw [List.length_take]
      omega
    exact .inl (if_neg hcut)

/-! ### Readers -/

/-- A reader that is put together of looks at the bytes in front. -/
inductive Program : ∀ {α : Type}, Action Reader α → Prop where
  | answer {α : Type} (a : α) : Program (pure a)
  | fault {α : Type} (e : Fault) : Program (fail e : Action Reader α)
  | seq {α β : Type} {x : Action Reader α} {f : α → Action Reader β} : Program x →
      (∀ a, Program (f a)) → Program (x >>= f)
  | next {α : Type} {read : List UInt8 → Except Fault (α × Nat)} : Prompt read → Program (next read)

theorem program_unsigned : Program unsigned := .next prompt_unsigned

theorem program_signed : Program signed := .next prompt_signed

theorem program_number : Program number := .next prompt_number

theorem program_bytes (n : Nat) : Program (bytes n) := .next (prompt_bytes n)

theorem program_byte : Program byte := by
  refine .next fun front more => ?_
  cases front with
  | nil => exact .inl rfl
  | cons b rest =>
    refine .inr ⟨rfl, fun a n h => ?_⟩
    rw [Except.ok.injEq, Prod.mk.injEq] at h
    rw [List.length_cons]
    omega

theorem program_skip (n : Nat) : Program (skip n) := .seq (program_bytes n) fun _ => .answer ()

theorem program_fixed (kind : Fixed) : Program (fixed kind) :=
  .seq (program_bytes kind.width) fun _ => .answer _

theorem program_text : Program text := by
  refine .seq program_unsigned fun length => .seq (program_bytes length) fun front => ?_
  split
  · exact .answer _
  · exact .fault .invalid

theorem program_principalBody : Program principalBody := by
  refine .seq program_unsigned fun length => ?_
  split
  · exact .seq (.fault .invalid) fun _ => program_bytes length
  · exact program_bytes length

theorem program_principal : Program principal := by
  refine .seq program_byte fun flag => ?_
  split
  · exact program_principalBody
  · exact .seq (.fault .invalid) fun _ => program_principalBody

theorem program_referenceFlag : Program referenceFlag := by
  refine .seq program_byte fun flag => ?_
  split
  · exact .fault .unsupported
  · exact .answer ()
  · exact .fault .invalid

theorem program_service : Program service := .seq program_referenceFlag fun _ => program_principalBody

theorem program_func : Program func :=
  .seq program_referenceFlag fun _ => .seq program_service fun _ => .seq program_text fun _ => .answer _

end TypedWire.Reader
