import TypedWire.Store.Factory
import TypedWire.Proofs.Store.Room

/-! Stores only grow: what a handle or span names stays the same, whatever is put in. A store without
    a limit takes all nodes, and one that is spacious takes byte strings too. -/

namespace TypedWire

/-- What a span can name: its length is a number of 32 bits. -/
def Payload (bytes : List UInt8) : Prop := bytes.length < 2 ^ 32

namespace Store

variable {s s' s'' : Store} {t : TypeId} {v : ValueId} {n : TypeNode} {x : Value} {p : Span}
variable {bytes : List UInt8}

/-- Whatever is named in `s` is named in `s'`. -/
structure Extends (s s' : Store) : Prop where
  typeAt : ∀ t n, s.typeAt t = .ok n → s'.typeAt t = .ok n
  valueAt : ∀ v x, s.valueAt v = .ok x → s'.valueAt v = .ok x
  bytesAt : ∀ p bytes, s.bytesAt p = .ok bytes → s'.bytesAt p = .ok bytes
  limit : s'.limit = s.limit
  blockSize : s'.blockSize = s.blockSize

theorem Extends.refl (s : Store) : s.Extends s := ⟨fun _ _ => id, fun _ _ => id, fun _ _ => id, rfl, rfl⟩

theorem Extends.trans (h : s.Extends s') (h' : s'.Extends s'') : s.Extends s'' where
  typeAt t n hn := h'.typeAt t n (h.typeAt t n hn)
  valueAt v x hx := h'.valueAt v x (h.valueAt v x hx)
  bytesAt p bytes hb := h'.bytesAt p bytes (h.bytesAt p bytes hb)
  limit := h'.limit.trans h.limit
  blockSize := h'.blockSize.trans h.blockSize

/-- A text is what its bytes spell. -/
theorem textAt_eq_ok {text : String} :
    s.textAt p = .ok text ↔ ∃ bytes, s.bytesAt p = .ok bytes ∧ utf8? bytes = some text := by
  simp only [textAt, Except.bind_eq_ok]
  refine exists_congr fun bytes => and_congr_right fun _ => ?_
  split <;> simp_all

theorem Extends.textAt (h : s.Extends s') {text : String} (ht : s.textAt p = .ok text) :
    s'.textAt p = .ok text := by
  rw [textAt_eq_ok] at ht ⊢
  obtain ⟨bytes, hb, htext⟩ := ht
  exact ⟨bytes, h.bytesAt p bytes hb, htext⟩

/-! ### What a run of a store does -/

/-- The store is extended by what has no types. -/
structure Grows (s s' : Store) : Prop extends s.Extends s' where
  types : s'.types = s.types

theorem Grows.refl (s : Store) : s.Grows s := ⟨.refl s, rfl⟩

theorem Grows.trans (h : s.Grows s') (h' : s'.Grows s'') : s.Grows s'' :=
  ⟨h.toExtends.trans h'.toExtends, h'.types.trans h.types⟩

/-- The store is extended by bytes only. -/
structure Pads (s s' : Store) : Prop extends s.Grows s' where
  values : s'.values = s.values

theorem Pads.refl (s : Store) : s.Pads s := ⟨.refl s, rfl⟩

theorem Pads.trans (h : s.Pads s') (h' : s'.Pads s'') : s.Pads s'' :=
  ⟨h.toGrows.trans h'.toGrows, h'.values.trans h.values⟩

theorem runs_charge (s : Store) (n : Nat) : Action.Runs (charge n) s
    (fun _ s' => s' = { s with charged := s.charged + n })
    (fun e s' => s' = s ∧ e = .storeFull ∧ s.limit ≠ none) := by
  by_cases hfull : s.limit.any (· < s.charged + n) = true
  · have hrun : charge n s = .error .storeFull s := by simp [charge, hfull]
    refine Action.runs_of_error hrun ⟨rfl, rfl, fun hl => ?_⟩
    simp [hl] at hfull
  · have hrun : charge n s = .ok () { s with charged := s.charged + n } := by
      simp only [charge, if_neg hfull]
    exact Action.runs_of_ok hrun rfl

theorem valueAt_eq_ok : s.valueAt v = .ok x ↔ s.values[v.index]? = some x := by
  unfold Store.valueAt
  split <;> simp_all

theorem typeAt_eq_ok : s.typeAt t = .ok n ↔ s.types[t.index]? = some n := by
  unfold Store.typeAt
  split <;> simp_all

theorem runs_putType (s : Store) (n : TypeNode) : Action.Runs (putType n) s
    (fun t s' => s.Extends s' ∧ s'.typeAt t = .ok n ∧ t.index = s.types.size ∧
      s'.types = s.types.push n ∧ s.Spends 0 s')
    (fun e s' => s' = s ∧ e = .storeFull ∧ s.limit ≠ none) := by
  refine Action.runs_bind ((runs_charge s typeCharge).post_mono ?_)
  rintro - s1 rfl
  refine Action.runs_of_ok rfl
    ⟨⟨fun t m hm => ?_, fun _ _ => id, fun _ _ => id, rfl, rfl⟩, ?_, rfl, rfl, .of_blocks rfl rfl rfl rfl⟩
  · rw [typeAt_eq_ok] at hm ⊢
    exact getElem?_push_of_some hm
  · simp [typeAt_eq_ok]

theorem runs_putValue (s : Store) (x : Value) : Action.Runs (putValue x) s
    (fun v s' => s.Grows s' ∧ s'.valueAt v = .ok x ∧ s'.values = s.values.push x ∧ s.Spends 0 s')
    (fun e s' => s' = s ∧ e = .storeFull ∧ s.limit ≠ none) := by
  refine Action.runs_bind ((runs_charge s valueCharge).post_mono ?_)
  rintro - s1 rfl
  refine Action.runs_of_ok rfl
    ⟨⟨⟨fun _ _ => id, fun v y hy => ?_, fun _ _ => id, rfl, rfl⟩, rfl⟩, ?_, rfl, .of_blocks rfl rfl rfl rfl⟩
  · rw [valueAt_eq_ok] at hy ⊢
    exact getElem?_push_of_some hy
  · simp [valueAt_eq_ok]

/-! ### Byte strings -/

/-- A store that was filled up is padded. -/
theorem FillsUp.pads (h : s.FillsUp s') : s.Pads s' := by
  obtain ⟨blocks, hc, rfl⟩ := h
  exact ⟨⟨⟨fun _ _ => id, fun _ _ => id, fun _ _ hb => Continues.bytesAt hc hb, rfl, rfl⟩, rfl⟩, rfl⟩

/-- Bytes are put in, and as many are spent. -/
theorem runs_putBytes (s : Store) (bytes : List UInt8) : Action.Runs (putBytes bytes) s
    (fun p s' => s.Pads s' ∧ s'.bytesAt p = .ok bytes ∧ s.Spends bytes.length s')
    (fun e s' => s.Pads s' ∧ e = .storeFull ∧ s.RunsOut bytes.length (· = bytes.length) s') := by
  refine Action.runs_bind ((runs_charge s bytes.length).mono ?_ ?_)
  · rintro - s1 rfl
    have hcharge : s.Pads { s with charged := s.charged + bytes.length } :=
      ⟨⟨⟨fun _ _ => id, fun _ _ => id, fun _ _ => id, rfl, rfl⟩, rfl⟩, rfl⟩
    refine Action.runs_bind (Action.runs_of_ok rfl ((runs_place s.spare bytes _).mono ?_ ?_))
    · rintro p s' ⟨hs, hp, -⟩
      have hcharged : s.Spends 0 { s with charged := s.charged + bytes.length } :=
        .of_blocks rfl rfl rfl rfl
      have hspends := hcharged.trans hs.spends
      rw [Nat.zero_add] at hspends
      exact ⟨hcharge.trans hs.fillsUp.pads, hp, hspends⟩
    · rintro e s' ⟨hs, rfl, hbefore, hafter⟩
      have hspare : s'.spare = s.spare := by
        obtain ⟨blocks, -, rfl⟩ := hs
        rfl
      refine ⟨hcharge.trans hs.pads, rfl, hs.pads.limit, fun hspacious => ?_, fun _ => ⟨_, rfl, ?_⟩⟩
      · exact Bool.false_ne_true (hbefore.symm.trans hspacious.takes)
      · rw [hspare]
        exact hafter
  · rintro e s1 ⟨rfl, rfl, hlimit⟩
    exact ⟨.refl s1, rfl, runsOut_of_limit hlimit⟩

end Store

end TypedWire
