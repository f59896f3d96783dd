import TypedWire.Proofs.Store.Place

/-! Room for bytes. A store that is spacious takes byte strings until they come to so many bytes in all; a
    run that puts in fewer leaves it spacious for the others. Where a run finds the store full, the store
    was not spacious, and it has come to a limit: it has one on its charge, or there is a byte string that
    it does not take. -/

namespace TypedWire.Store

open TypedWire.Action

variable {s s' s'' : Store} {bytes : List UInt8} {m n k : Nat} {P Q : Nat → Prop}

/-- There is room for byte strings of `k` bytes in all, whatever their number: nothing limits the charge,
    memory has a block for each, and the numbers of their spans have 32 bits. -/
structure Spacious (s : Store) (k : Nat) : Prop where
  limit : s.limit = none
  memory : ∀ n ≤ k, 0 < n → (s.spare (max (max s.blockSize 1) n)).isSome = true
  blocks : 0 < k → s.blocks.size + k < 2 ^ 32
  filled : 0 < k → ∀ b ∈ s.blocks, b.bytes.size + k < 2 ^ 32

instance (s : Store) (k : Nat) : Decidable (s.Spacious k) :=
  decidable_of_iff
    (s.limit = none ∧ (∀ n ≤ k, 0 < n → (s.spare (max (max s.blockSize 1) n)).isSome = true) ∧
      (0 < k → s.blocks.size + k < 2 ^ 32) ∧ (0 < k → ∀ b ∈ s.blocks, b.bytes.size + k < 2 ^ 32))
    ⟨fun ⟨hl, hm, hb, hf⟩ => ⟨hl, hm, hb, hf⟩, fun ⟨hl, hm, hb, hf⟩ => ⟨hl, hm, hb, hf⟩⟩

theorem Spacious.le (h : s.Spacious n) (hle : m ≤ n) : s.Spacious m where
  limit := h.limit
  memory i him hi := h.memory i (Nat.le_trans him hle) hi
  blocks hm := by
    have := h.blocks (by omega)
    omega
  filled hm b hb := by
    have := h.filled (by omega) b hb
    omega

theorem Spacious.takes (h : s.Spacious n) : s.takes s.spare n = true := by
  rcases Nat.eq_zero_or_pos n with rfl | hn
  · rfl
  have hblocks := h.blocks hn
  have hlength : decide (n < 2 ^ 32) = true := decide_eq_true (by omega)
  have hfilled : s.blocks.back?.all (·.bytes.size < 2 ^ 32) = true := by
    cases hback : s.blocks.back? with
    | none => rfl
    | some b =>
      have := h.filled hn b (Array.mem_of_back? hback)
      exact decide_eq_true (by omega)
  have hlast : decide (s.blocks.size ≤ 2 ^ 32) = true := decide_eq_true (by omega)
  have hnext : decide (s.blocks.size < 2 ^ 32) = true := decide_eq_true (by omega)
  have hspans : s.spansLast = true := by rw [spansLast, hfilled, hlast, Bool.and_self]
  rw [Store.takes, hlength, hspans, h.memory n (Nat.le_refl n) hn, hnext]
  simp

/-- The second store is spacious for what is left when `n` bytes have been put into the first. -/
def Spends (s : Store) (n : Nat) (s' : Store) : Prop := ∀ k, s.Spacious (n + k) → s'.Spacious k

theorem Spends.refl (s : Store) (n : Nat) : s.Spends n s := fun _ h => h.le (Nat.le_add_left ..)

theorem Spends.trans (h : s.Spends m s') (h' : s'.Spends n s'') : s.Spends (m + n) s'' :=
  fun k hk => h' k (h (n + k) (hk.le (by omega)))

theorem Spends.le (h : s.Spends m s') (hle : m ≤ n) : s.Spends n s' :=
  fun k hk => h k (hk.le (by omega))

/-- A store with the same blocks is as spacious. -/
theorem Spends.of_blocks (hlimit : s'.limit = s.limit) (hspare : s'.spare = s.spare)
    (hsize : s'.blockSize = s.blockSize) (hblocks : s'.blocks = s.blocks) : s.Spends 0 s' := by
  intro k h
  rw [Nat.zero_add] at h
  refine ⟨hlimit.trans h.limit, ?_, ?_, ?_⟩
  · rw [hspare, hsize]
    exact h.memory
  · rw [hblocks]
    exact h.blocks
  · rw [hblocks]
    exact h.filled

theorem mem_appended {b : Block} (hb : b ∈ (s.appended bytes).blocks) :
    ∃ c ∈ s.blocks, b.bytes.size ≤ c.bytes.size + bytes.length := by
  obtain ⟨i, hi⟩ := Array.getElem?_of_mem hb
  rw [appended, Array.getElem?_modify] at hi
  split at hi
  · obtain ⟨c, hc, rfl⟩ := Option.map_eq_some_iff.mp hi
    refine ⟨c, Array.mem_of_getElem? hc, Nat.le_of_eq ?_⟩
    rw [← Array.length_toList, Array.toList_appendList, List.length_append, Array.length_toList]
  · exact ⟨b, Array.mem_of_getElem? hi, Nat.le_add_right ..⟩

/-- What is placed is spent. -/
theorem Places.spends (h : s.Places bytes s') : s.Spends bytes.length s' := by
  intro k hk
  cases h with
  | none => exact hk.le (Nat.le_add_left ..)
  | last =>
    refine ⟨hk.limit, fun n hle hn => hk.memory n (by omega) hn, fun hpos => ?_, fun hpos b hb => ?_⟩
    · have := hk.blocks (by omega)
      rw [appended, Array.size_modify]
      omega
    · obtain ⟨c, hc, hle⟩ := mem_appended hb
      have := hk.filled (by omega) c hc
      omega
  | opened capacity hne =>
    have hlength : 0 < bytes.length := List.length_pos_iff.mpr hne
    refine ⟨hk.limit, fun n hle hn => hk.memory n (by omega) hn, fun hpos => ?_, fun hpos b hb => ?_⟩
    · have := hk.blocks (by omega)
      rw [appended, Array.size_modify, Array.size_push]
      omega
    · obtain ⟨c, hc, hle⟩ := mem_appended hb
      rcases Array.mem_push.mp hc with hc | rfl
      · have := hk.filled (by omega) c hc
        omega
      · have := hk.blocks (by omega)
        have hnew : b.bytes.size ≤ 0 + bytes.length := hle
        omega

/-! ### Stores that are full -/

/-- How a store comes to be full: the first store has no room for `n` bytes in all, and the second, in which
    a run has ended, has a limit, or does not take a byte string whose length is one of `P`. -/
structure RunsOut (s : Store) (n : Nat) (P : Nat → Prop) (s' : Store) : Prop where
  limit : s'.limit = s.limit
  short : ¬ s.Spacious n
  refuses : s.limit = none → ∃ m, P m ∧ s'.takes s'.spare m = false

theorem runsOut_of_limit (h : s.limit ≠ none) : s.RunsOut n P s :=
  ⟨rfl, fun hs => h hs.limit, fun hs => absurd hs h⟩

/-- Where no byte string is put in, a store runs out only if it has a limit. -/
theorem RunsOut.limited (h : s.RunsOut n (fun _ => False) s') : s.limit ≠ none := by
  intro hl
  obtain ⟨_, hnever, -⟩ := h.refuses hl
  exact hnever

theorem RunsOut.mono (h : s.RunsOut m P s') (hle : m ≤ n) (hPQ : ∀ i, P i → Q i) : s.RunsOut n Q s' where
  limit := h.limit
  short hs := h.short (hs.le hle)
  refuses hl := by
    obtain ⟨i, hi, htakes⟩ := h.refuses hl
    exact ⟨i, hPQ i hi, htakes⟩

/-- A store that runs out after others have been spent. -/
theorem RunsOut.after (h : s'.RunsOut n P s'') (hs : s.Spends m s') (hlimit : s'.limit = s.limit) :
    s.RunsOut (m + n) P s'' :=
  ⟨h.limit.trans hlimit, fun hk => h.short (hs n hk), fun hl => h.refuses (hlimit.trans hl)⟩

end TypedWire.Store
