import TypedWire.Proofs.Store.Account

/-! What a store holds lies apart. A call puts what it is given where nothing was before: a node behind a new
    handle, bytes at places of a block that were not written, which is why no block but the last one may be
    filled up. So whatever is put in later, and whichever calls fail, each answer goes on to find what its
    call was given, and no two answers share a handle or a byte. -/

namespace TypedWire

/-- A place in a block is one of those that the span names. -/
def Span.Covers (p : Span) (block place : Nat) : Prop :=
  p.block = block ∧ p.start ≤ place ∧ place < p.start + p.length

namespace Store

open TypedWire.Action

variable {s s' : Store} {m : Memory} {call : Call} {p q : Place}

/-- The two answers have no handle and no byte in common. -/
def Place.Apart : Place → Place → Prop
  | .type t, .type u => t ≠ u
  | .value v, .value u => v ≠ u
  | .span p, .span q => ∀ block place, p.Covers block place → ¬ q.Covers block place
  | _, _ => True

/-- There is a byte at this place of the block. -/
def Written (s : Store) (block place : Nat) : Prop := ∃ b, s.blocks[block]? = some b ∧ place < b.bytes.size

/-- Nothing in the store is found there. -/
def Unused (s : Store) : Place → Prop
  | .type t => s.types.size ≤ t.index
  | .value v => s.values.size ≤ v.index
  | .span p => ∀ block place, p.Covers block place → ¬ s.Written block place

/-! ### What was there before -/

/-- A span that can be read names bytes that have been written. -/
theorem written_of_bytesAt {p : Span} {bytes : List UInt8} {block place : Nat} (h : s.bytesAt p = .ok bytes)
    (hp : p.Covers block place) : s.Written block place := by
  obtain ⟨rfl, hstart, hstop⟩ := hp
  have hlength : p.length ≠ 0 := by omega
  unfold bytesAt at h
  rw [if_neg hlength] at h
  split at h
  · next b hb =>
    dsimp only at h
    split at h
    · next hle => exact ⟨b, hb, by omega⟩
    · exact absurd h (by simp)
  · exact absurd h (by simp)

/-- What is found lies apart from what is unused. -/
theorem Finds.apart (hp : s.Finds p call) (hq : s.Unused q) : p.Apart q := by
  cases p <;> cases q <;> cases call <;> first | exact trivial | exact hp.elim | skip
  · rintro rfl
    have hlt := (Array.getElem?_eq_some_iff.mp (typeAt_eq_ok.mp hp)).1
    exact absurd hlt (Nat.not_lt.mpr hq)
  · rintro rfl
    have hlt := (Array.getElem?_eq_some_iff.mp (valueAt_eq_ok.mp hp)).1
    exact absurd hlt (Nat.not_lt.mpr hq)
  · exact fun block place hcovers hother => hq block place hother (written_of_bytesAt hp hcovers)

/-! ### One call -/

/-- Bytes are added at the end of the last block. -/
theorem runs_extendLast_place (bytes : List UInt8) (s : Store) : Runs (extendLast bytes) s
    (fun p _ => p.block = s.blocks.size - 1 ∧ ∀ b, s.blocks[p.block]? = some b → p.start = b.bytes.size)
    fun _ _ => True := by
  refine runs_bind (runs_of_ok rfl (runs_bind ((runs_require _ s).mono ?_ fun _ _ _ => trivial)))
  rintro - s1 ⟨rfl, -⟩
  refine runs_bind (runs_of_ok rfl (runs_bind ((runs_require _ _).mono ?_ fun _ _ _ => trivial)))
  rintro - s2 -
  refine runs_pure ⟨rfl, fun b hb => ?_⟩
  dsimp only at hb ⊢
  rw [hb]
  rfl

/-- Bytes are put where none have been written: behind those of the last block, or in a new one. -/
theorem runs_place_unused (spare : Nat → Option Nat) (bytes : List UInt8) (s : Store) :
    Runs (place spare bytes) s (fun p _ => s.Unused (.span p)) fun _ _ => True := by
  unfold place
  split
  · refine runs_pure fun block place hcovers => ?_
    obtain ⟨-, -, hstop⟩ := hcovers
    exact absurd hstop (Nat.not_lt_zero _)
  refine runs_bind ((runs_require _ s).mono ?_ fun _ _ _ => trivial)
  rintro - s1 ⟨rfl, -⟩
  refine runs_bind ((runs_makeRoom spare _ s1).mono ?_ fun _ _ _ => trivial)
  rintro - s2 (⟨-, rfl⟩ | ⟨-, -, capacity, rfl⟩)
  · refine (runs_extendLast_place bytes s2).post_mono ?_
    rintro p - ⟨-, hstart⟩ _ place ⟨rfl, hle, -⟩ ⟨b, hb, hlt⟩
    exact absurd hlt (Nat.not_lt.mpr (hstart b hb ▸ hle))
  · refine (runs_extendLast_place bytes _).post_mono ?_
    rintro p - ⟨hlast, -⟩ _ place ⟨rfl, -, -⟩ ⟨b, hb, -⟩
    have hnew : p.block = s1.blocks.size := by simpa using hlast
    rw [hnew, Array.getElem?_size] at hb
    exact absurd hb (by simp)

/-- A call puts what it is given where nothing was. -/
theorem runs_putOn_unused (m : Memory) (call : Call) (s : Store) :
    Runs (call.putOn m) s (fun q _ => s.Unused q) fun _ _ => True := by
  cases call with
  | type node =>
    rw [Call.putOn, Memory.putType, bind_assoc]
    refine runs_bind ((runs_chargeWord s _).mono ?_ fun _ _ _ => trivial)
    rintro - s1 ⟨rfl, -⟩
    refine runs_bind (runs_bind ((runs_nextIndex m _ _).mono ?_ fun _ _ _ => trivial))
    rintro _ s2 ⟨rfl, rfl, -⟩
    exact runs_of_ok rfl (runs_pure (Nat.le_refl s.types.size))
  | value node =>
    rw [Call.putOn, Memory.putValue, bind_assoc]
    refine runs_bind ((runs_chargeWord s _).mono ?_ fun _ _ _ => trivial)
    rintro - s1 ⟨rfl, -⟩
    refine runs_bind (runs_bind ((runs_nextIndex m _ _).mono ?_ fun _ _ _ => trivial))
    rintro _ s2 ⟨rfl, rfl, -⟩
    exact runs_of_ok rfl (runs_pure (Nat.le_refl s.values.size))
  | bytes content =>
    rw [Call.putOn, Memory.putBytes, bind_assoc]
    refine runs_bind ((runs_chargeWord s _).mono ?_ fun _ _ _ => trivial)
    rintro - s1 ⟨rfl, -⟩
    exact runs_bind ((runs_place_unused m.spare content _).post_mono fun p s2 hp => runs_pure hp)

theorem event_unused (h : (s.event m call).answer = .ok q) : s.Unused q := by
  have hrun := runs_putOn_unused m call s
  unfold event outcome at h
  unfold Runs at hrun
  split at hrun
  · next hput =>
    rw [hput] at h
    exact Except.ok.inj h ▸ hrun
  · next hput =>
    rw [hput] at h
    exact absurd h (by simp)

/-! ### Calls one after another -/

/-- What is at the place is found before and after the event, which puts nothing of its own there. -/
structure Event.Spares (e : Event) (p : Place) (call : Call) : Prop where
  before : e.before.Finds p call
  after : e.after.Finds p call
  apart : ∀ q, e.answer = .ok q → p.Apart q

/-- Calls made on a store spare whatever is found in it. -/
theorem events_spare (calls : List (Memory × Call)) (s : Store) : ∀ e ∈ s.events calls,
    ∀ p call, s.Finds p call → e.Spares p call := by
  induction calls generalizing s with
  | nil => simp [events]
  | cons c calls ih =>
    obtain ⟨m, call⟩ := c
    have hafter : s.Extends (s.event m call).after := (event_fair s m call).account.toExtends
    rw [events, List.forall_mem_cons]
    refine ⟨fun p given hp => ?_, fun e he p given hp => ?_⟩
    · exact ⟨hp, hafter.finds hp, fun q hq => hp.apart (event_unused hq)⟩
    · exact ih _ e he p given (hafter.finds hp)

theorem events_pairwise (calls : List (Memory × Call)) (s : Store) :
    (s.events calls).Pairwise fun earlier later =>
      ∀ p, earlier.answer = .ok p → later.Spares p earlier.call := by
  induction calls generalizing s with
  | nil => exact .nil
  | cons c calls ih =>
    obtain ⟨m, call⟩ := c
    refine List.pairwise_cons.mpr ⟨fun later hlater p hp => ?_, ih _⟩
    exact events_spare calls _ later hlater p call ((event_fair s m call).found p hp)

/-- What is in a store stays there, whatever its limit and its blocks, and whichever calls are made since it
    was cleared, of which some may fail. What a call answers finds what the call was given as soon as it
    ends, when each later call is made, after it and at the end: a node is found as it was, and bytes are
    read back just as they were. No later call answers the same handle, or a span that has a byte in common
    with this one. As long as the charge and the handles keep within their numbers, and memory gives what the
    store counts on, the calls are those of the store. -/
theorem places_stable (s : Store) (calls : List (Memory × Call)) :
    (∀ e ∈ s.cleared.events calls, ∀ p, e.answer = .ok p →
      e.after.Finds p e.call ∧ (s.cleared.afterCalls calls).Finds p e.call) ∧
    ((s.cleared.events calls).Pairwise fun earlier later =>
      ∀ p, earlier.answer = .ok p → later.Spares p earlier.call) ∧
    ∀ (store : Store) (call : Call), store.InRange call →
      call.putOn ⟨store.spare, true⟩ store = call.put store := by
  refine ⟨fun e he p hp => ?_, events_pairwise calls s.cleared, fun _ _ => putOn_run⟩
  obtain ⟨hfair, hlater⟩ := (events_account calls s.cleared).2 e he
  exact ⟨hfair.found p hp, hlater.finds (hfair.found p hp)⟩

/-- Two short strings share a block, and the one that is too long for it has a block of its own, after which
    a short one is put behind the long one only if there is room. -/
example : ((events { blockSize := 4 } ([[1, 2], [3], [4, 5, 6, 7, 8], [9]].map fun bytes =>
      (⟨addressed, true⟩, .bytes bytes))).map Event.answer) =
    [.ok (.span ⟨0, 0, 2⟩), .ok (.span ⟨0, 2, 1⟩), .ok (.span ⟨1, 0, 5⟩), .ok (.span ⟨2, 0, 1⟩)] := rfl

end Store

end TypedWire
