import TypedWire.Store
import TypedWire.Proofs.Action

/-! Finding a place for bytes, step by step: where each step is refused, and what the steps before it have
    done by then. Blocks are only filled up, so what a span names stays the same. -/

namespace TypedWire.Store

open TypedWire.Action

variable {s s' s'' : Store} {p : Span} {bytes : List UInt8} {spare : Nat → Option Nat} {n : Nat}

/-! ### Blocks that are filled up -/

theorem getElem?_push_of_some {α : Type} {xs : Array α} {i : Nat} {a b : α} (h : xs[i]? = some a) :
    (xs.push b)[i]? = some a := by
  have hi : i < xs.size := (Array.getElem?_eq_some_iff.mp h).1
  rw [Array.getElem?_push_lt hi, ← h, Array.getElem?_eq_getElem hi]

/-- Each block of the first list is in the second, and begins as it was. -/
def Continues (blocks blocks' : Array Block) : Prop :=
  ∀ (i : Nat) (b : Block), blocks[i]? = some b →
    ∃ b' : Block, blocks'[i]? = some b' ∧ b.bytes.toList <+: b'.bytes.toList

theorem extract_of_front {xs ys : Array UInt8} (h : xs.toList <+: ys.toList) {i j : Nat}
    (hj : j ≤ xs.size) : j ≤ ys.size ∧ ys.extract i j = xs.extract i j := by
  obtain ⟨zs, hzs⟩ := h
  have hys : ys = xs ++ zs.toArray := by
    apply Array.toList_inj.mp
    simpa using hzs.symm
  subst hys
  refine ⟨by simp; omega, ?_⟩
  rw [Array.extract_append]
  simp [Nat.sub_eq_zero_of_le hj]

theorem Continues.bytesAt (h : Continues s.blocks s'.blocks) (hb : s.bytesAt p = .ok bytes) :
    s'.bytesAt p = .ok bytes := by
  unfold Store.bytesAt at hb ⊢
  split at hb
  · next hz => rw [if_pos hz, ← hb]
  · next hz =>
    rw [if_neg hz]
    split at hb
    · next b hget =>
      obtain ⟨b', hget', hpre⟩ := h _ _ hget
      simp only [hget'] at hb ⊢
      split at hb
      · next hle =>
        obtain ⟨hle', hext⟩ := extract_of_front (i := p.start) hpre hle
        rw [if_pos hle', hext, ← hb]
      · exact absurd hb (by simp)
    · exact absurd hb (by simp)

/-- The stores differ in their blocks only, and no block has lost anything. -/
def FillsUp (s s' : Store) : Prop := ∃ blocks, Continues s.blocks blocks ∧ s' = { s with blocks }

theorem FillsUp.refl (s : Store) : s.FillsUp s := ⟨s.blocks, fun _ b hb => ⟨b, hb, List.prefix_rfl⟩, rfl⟩

theorem FillsUp.trans (h : s.FillsUp s') (h' : s'.FillsUp s'') : s.FillsUp s'' := by
  obtain ⟨blocks, hc, rfl⟩ := h
  obtain ⟨blocks', hc', rfl⟩ := h'
  refine ⟨blocks', fun i b hb => ?_, rfl⟩
  obtain ⟨b1, hb1, hfront⟩ := hc i b hb
  obtain ⟨b2, hb2, hfront'⟩ := hc' i b1 hb1
  exact ⟨b2, hb2, hfront.trans hfront'⟩

/-! ### Where there is a place -/

/-- Whether the numbers of a span in the last block have 32 bits. -/
def spansLast (s : Store) : Bool :=
  s.blocks.back?.all (·.bytes.size < 2 ^ 32) && s.blocks.size ≤ 2 ^ 32

/-- Whether there is a place for `n` bytes, where memory gives what `spare` says. -/
def takes (spare : Nat → Option Nat) (s : Store) (n : Nat) : Bool :=
  n = 0 || (n < 2 ^ 32 &&
    if s.hasRoom n then s.spansLast
    else (spare (max (max s.blockSize 1) n)).isSome && s.blocks.size < 2 ^ 32)

theorem takes_of_pos (spare : Nat → Option Nat) (s : Store) (hn : 0 < n) :
    takes spare s n = (decide (n < 2 ^ 32) && if s.hasRoom n then s.spansLast
      else (spare (max (max s.blockSize 1) n)).isSome && s.blocks.size < 2 ^ 32) := by
  rw [takes, decide_eq_false (Nat.ne_of_gt hn), Bool.false_or]

/-- Where the last block has a number of more than 32 bits, nothing more finds a place. -/
theorem takes_crowded (h : 2 ^ 32 < s.blocks.size) (hn : 0 < n) : takes spare s n = false := by
  have hlast : s.spansLast = false := by
    rw [spansLast, decide_eq_false (Nat.not_le.mpr h), Bool.and_false]
  have hnext : decide (s.blocks.size < 2 ^ 32) = false := decide_eq_false (by omega)
  rw [takes_of_pos spare s hn, hlast, hnext]
  simp

theorem runs_require (kept : Bool) (s : Store) : Runs (require kept) s
    (fun _ s' => s' = s ∧ kept = true) fun e s' => s' = s ∧ e = .storeFull ∧ kept = false := by
  cases kept with
  | true => exact runs_of_ok rfl ⟨rfl, rfl⟩
  | false => exact runs_of_error rfl ⟨rfl, rfl, rfl⟩

theorem runs_makeRoom (spare : Nat → Option Nat) (n : Nat) (s : Store) : Runs (makeRoom spare n) s
    (fun _ s' => s.hasRoom n = true ∧ s' = s ∨
      s.hasRoom n = false ∧ (spare (max (max s.blockSize 1) n)).isSome = true ∧
        ∃ capacity, s' = { s with blocks := s.blocks.push ⟨capacity, #[]⟩ })
    fun e s' => s' = s ∧ e = .storeFull ∧
      s.hasRoom n = false ∧ (spare (max (max s.blockSize 1) n)).isSome = false := by
  cases hroom : s.hasRoom n with
  | true => exact runs_of_ok (by rw [makeRoom, if_pos hroom]) (.inl ⟨rfl, rfl⟩)
  | false =>
    have hopen : makeRoom spare n s = openBlock spare n s := by
      rw [makeRoom, if_neg (by simp [hroom])]
    cases hspare : spare (max (max s.blockSize 1) n) with
    | some more =>
      have hrun : openBlock spare n s = .ok ()
          { s with blocks := s.blocks.push ⟨max (max s.blockSize 1) n + more, #[]⟩ } := by
        simp only [openBlock, hspare]
      exact runs_of_ok (hopen.trans hrun) (.inr ⟨rfl, rfl, _, rfl⟩)
    | none =>
      have hrun : openBlock spare n s = .error .storeFull s := by
        simp only [openBlock, hspare]
      exact runs_of_error (hopen.trans hrun) ⟨rfl, rfl, rfl, rfl⟩

/-- A store with `bytes` behind those of its last block. -/
def appended (s : Store) (bytes : List UInt8) : Store :=
  { s with blocks := s.blocks.modify (s.blocks.size - 1) fun b => { b with bytes := b.bytes ++ bytes } }

theorem fillsUp_appended (s : Store) (bytes : List UInt8) : s.FillsUp (s.appended bytes) := by
  refine ⟨_, fun i c hc => ?_, rfl⟩
  by_cases hi : s.blocks.size - 1 = i
  · subst hi
    exact ⟨⟨c.capacity, c.bytes ++ bytes⟩, by simp [Array.getElem?_modify, hc], by simp⟩
  · exact ⟨c, by simp [Array.getElem?_modify, hi, hc], List.prefix_rfl⟩

theorem fillsUp_opened (s : Store) (capacity : Nat) :
    s.FillsUp { s with blocks := s.blocks.push ⟨capacity, #[]⟩ } :=
  ⟨_, fun _ b hb => ⟨b, getElem?_push_of_some hb, List.prefix_rfl⟩, rfl⟩

theorem runs_append (s : Store) (hne : s.blocks ≠ #[]) : Runs (append bytes) s
    (fun p s' => s' = s.appended bytes ∧ p.block = s.blocks.size - 1 ∧ s'.bytesAt p = .ok bytes)
    fun _ _ => False := by
  have hpos : 0 < s.blocks.size := by
    rw [Nat.pos_iff_ne_zero]
    simpa using hne
  obtain ⟨b, hb⟩ : ∃ b, s.blocks[s.blocks.size - 1]? = some b :=
    ⟨_, Array.getElem?_eq_getElem (by omega)⟩
  refine runs_of_ok rfl ⟨rfl, rfl, ?_⟩
  unfold Store.bytesAt
  split
  · next hz => simpa using (List.length_eq_zero_iff.mp hz).symm
  · have happ : (b.bytes ++ bytes : Array UInt8) = b.bytes ++ bytes.toArray := Array.ext' (by simp)
    simp [Array.getElem?_modify, hb, happ]

/-- Bytes are added to the last block if the numbers of their span have 32 bits. Else they may be there all
    the same, and nothing more finds a place. -/
theorem runs_extendLast (s : Store) (hne : s.blocks ≠ #[]) : Runs (extendLast bytes) s
    (fun p s' => s' = s.appended bytes ∧ s'.bytesAt p = .ok bytes ∧ s.spansLast = true)
    fun e s' => e = .storeFull ∧ s.spansLast = false ∧
      (s' = s ∨ s' = s.appended bytes ∧ 2 ^ 32 < s'.blocks.size) := by
  refine runs_bind (runs_of_ok rfl (runs_bind ((runs_require _ s).mono ?_ ?_)))
  · rintro - s1 ⟨rfl, hstart⟩
    refine runs_bind ((runs_append s1 hne).mono ?_ fun _ _ => False.elim)
    rintro p s2 ⟨rfl, hlast, hp⟩
    refine runs_bind ((runs_require _ _).mono ?_ ?_)
    · rintro - s3 ⟨rfl, hword⟩
      have hsize : s1.blocks.size ≤ 2 ^ 32 := by
        have := of_decide_eq_true hword
        omega
      exact runs_pure ⟨rfl, hp, by rw [spansLast, hstart, decide_eq_true hsize]; rfl⟩
    · rintro e s3 ⟨rfl, rfl, hword⟩
      have hsize : ¬ s1.blocks.size ≤ 2 ^ 32 := by
        have := of_decide_eq_false hword
        omega
      have hcrowded : 2 ^ 32 < (s1.appended bytes).blocks.size := by
        rw [appended, Array.size_modify]
        omega
      exact ⟨rfl, by rw [spansLast, decide_eq_false hsize, Bool.and_false], .inr ⟨rfl, hcrowded⟩⟩
  · rintro e s1 ⟨rfl, rfl, hstart⟩
    exact ⟨rfl, by rw [spansLast, hstart, Bool.false_and], .inl rfl⟩

/-- A block that has just been opened is empty, so its own number is all that counts. -/
theorem spansLast_opened (s : Store) (capacity : Nat) :
    spansLast { s with blocks := s.blocks.push ⟨capacity, #[]⟩ } = decide (s.blocks.size < 2 ^ 32) := by
  rw [spansLast, Array.back?_push, Option.all_some, Array.size_push]
  rfl

/-- Bytes are added to a block that has just been opened if its number has 32 bits. Else nothing more finds
    a place. -/
theorem runs_extendLast_opened (s : Store) (capacity : Nat) :
    Runs (extendLast bytes) { s with blocks := s.blocks.push ⟨capacity, #[]⟩ }
      (fun p s' => s' = appended { s with blocks := s.blocks.push ⟨capacity, #[]⟩ } bytes ∧
        s'.bytesAt p = .ok bytes ∧ decide (s.blocks.size < 2 ^ 32) = true)
      fun e s' => e = .storeFull ∧ decide (s.blocks.size < 2 ^ 32) = false ∧ s.FillsUp s' ∧
        2 ^ 32 < s'.blocks.size := by
  have hopened := spansLast_opened s capacity
  refine (runs_extendLast _ (by simp)).mono ?_ ?_
  · rintro p s' ⟨rfl, hp, hlast⟩
    exact ⟨rfl, hp, hopened.symm.trans hlast⟩
  · rintro e s' ⟨rfl, hlast, hleft⟩
    have hfull := hopened.symm.trans hlast
    refine ⟨rfl, hfull, ?_⟩
    rcases hleft with rfl | ⟨rfl, hcrowded⟩
    · have hsize := of_decide_eq_false hfull
      exact ⟨fillsUp_opened s capacity, by rw [Array.size_push]; omega⟩
    · exact ⟨(fillsUp_opened s capacity).trans (fillsUp_appended _ bytes), hcrowded⟩

/-- What finding a place makes of a store: nothing, or bytes behind those of the last block or in a block of
    their own. -/
inductive Places (s : Store) (bytes : List UInt8) : Store → Prop where
  | none : bytes = [] → Places s bytes s
  | last : Places s bytes (s.appended bytes)
  | opened (capacity : Nat) : bytes ≠ [] →
      Places s bytes (appended { s with blocks := s.blocks.push ⟨capacity, #[]⟩ } bytes)

theorem Places.fillsUp (h : s.Places bytes s') : s.FillsUp s' := by
  cases h with
  | none => exact .refl s
  | last => exact fillsUp_appended s bytes
  | opened capacity => exact (fillsUp_opened s capacity).trans (fillsUp_appended _ bytes)

/-- Bytes are placed exactly where they are taken. Where they are not, they are not taken afterwards
    either. -/
theorem runs_place (spare : Nat → Option Nat) (bytes : List UInt8) (s : Store) :
    Runs (place spare bytes) s
      (fun p s' => s.Places bytes s' ∧ s'.bytesAt p = .ok bytes ∧ takes spare s bytes.length = true)
      fun e s' => s.FillsUp s' ∧ e = .storeFull ∧ takes spare s bytes.length = false ∧
        takes spare s' bytes.length = false := by
  unfold place
  split
  · next hempty =>
    have hnil := List.isEmpty_iff.mp hempty
    subst hnil
    exact runs_pure ⟨.none rfl, rfl, rfl⟩
  next hempty =>
  have hpos : 0 < bytes.length := List.length_pos_iff.mpr (by simpa using hempty)
  have htakes := takes_of_pos spare s hpos
  refine runs_bind ((runs_require _ s).mono ?_ ?_)
  · rintro - s1 ⟨rfl, hlength⟩
    rw [hlength, Bool.true_and] at htakes
    refine runs_bind ((runs_makeRoom spare _ s1).mono ?_ ?_)
    · rintro - s2 (⟨hroom, rfl⟩ | ⟨hroom, hspare, capacity, rfl⟩)
      · have hne : s2.blocks ≠ #[] := by
          intro hnone
          rw [hasRoom, hnone] at hroom
          exact absurd hroom (by simp)
        rw [if_pos hroom] at htakes
        refine (runs_extendLast s2 hne).mono ?_ ?_
        · rintro p s' ⟨rfl, hp, hlast⟩
          exact ⟨.last, hp, htakes.trans hlast⟩
        · rintro e s' ⟨rfl, hlast, rfl | ⟨rfl, hcrowded⟩⟩
          · exact ⟨.refl s', rfl, htakes.trans hlast, htakes.trans hlast⟩
          · exact ⟨fillsUp_appended s2 bytes, rfl, htakes.trans hlast, takes_crowded hcrowded hpos⟩
      · rw [if_neg (by simp [hroom]), hspare, Bool.true_and] at htakes
        refine (runs_extendLast_opened s1 capacity).mono ?_ ?_
        · rintro p s' ⟨rfl, hp, hnext⟩
          exact ⟨.opened capacity (List.length_pos_iff.mp hpos), hp, htakes.trans hnext⟩
        · rintro e s' ⟨rfl, hnext, hfills, hcrowded⟩
          exact ⟨hfills, rfl, htakes.trans hnext, takes_crowded hcrowded hpos⟩
    · rintro e s2 ⟨rfl, rfl, hroom, hspare⟩
      rw [if_neg (by simp [hroom]), hspare, Bool.false_and] at htakes
      exact ⟨.refl s2, rfl, htakes, htakes⟩
  · rintro e s1 ⟨rfl, rfl, hlength⟩
    rw [hlength, Bool.false_and] at htakes
    exact ⟨.refl s1, rfl, htakes, htakes⟩

end TypedWire.Store
