import TypedWire.Proofs.Growth
import TypedWire.Store.Word

/-! What the calls of a store do on a machine, step by step: where each step is refused, and what the steps
    before it have done by then. With numbers enough, and the memory that the store counts on, they are the
    calls of the store. -/

namespace TypedWire.Store

open TypedWire.Action

variable {s s' s'' : Store} {bytes : List UInt8} {n : Nat} {call : Call}

/-! ### Charging -/

theorem charge_run (s : Store) (n : Nat) : charge n s =
    if s.allows n then .ok () { s with charged := s.charged + n } else .error .storeFull s := by
  unfold charge allows
  cases s.limit with
  | none => rfl
  | some limit =>
    by_cases hle : s.charged + n ≤ limit
    · simp [hle, Nat.not_lt.mpr hle]
    · simp [hle, Nat.lt_of_not_le hle]

/-- All or nothing is charged. -/
theorem runs_chargeWord (s : Store) (n : Nat) : Runs (chargeWord n) s
    (fun _ s' => s' = { s with charged := s.charged + n } ∧ s.affords n = true)
    fun e s' => s' = s ∧ e = .storeFull ∧ s.affords n = false := by
  refine runs_bind (runs_of_ok rfl ?_)
  refine runs_bind ((runs_require _ s).mono ?_ ?_)
  · rintro - s1 ⟨rfl, hword⟩
    by_cases hallows : s1.allows n = true
    · exact runs_of_ok (by rw [charge_run, if_pos hallows]) ⟨rfl, by rw [affords, hword, hallows]; rfl⟩
    · have hrefused : s1.affords n = false := by
        rw [affords, Bool.eq_false_iff.mpr hallows, Bool.and_false]
      exact runs_of_error (by rw [charge_run, if_neg hallows]) ⟨rfl, rfl, hrefused⟩
  · rintro e s1 ⟨rfl, rfl, hword⟩
    exact ⟨rfl, rfl, by rw [affords, hword, Bool.false_and]⟩

/-! ### An index for a node -/

/-- There is an index for a node if its handle has 32 bits and the list can be made longer. -/
theorem runs_nextIndex (m : Memory) (count : Store → Nat) (s : Store) : Runs (m.nextIndex count) s
    (fun index s' => s' = s ∧ index = count s ∧ (decide (count s < 2 ^ 32) && m.longer) = true)
    fun e s' => s' = s ∧ e = .storeFull ∧ (decide (count s < 2 ^ 32) && m.longer) = false := by
  refine runs_bind (runs_of_ok rfl (runs_bind ((runs_require _ s).mono ?_ ?_)))
  · rintro - s1 ⟨rfl, hindex⟩
    refine runs_bind ((runs_require _ s1).mono ?_ ?_)
    · rintro - s2 ⟨rfl, hlonger⟩
      exact runs_pure ⟨rfl, rfl, by rw [hindex, hlonger]; rfl⟩
    · rintro e s2 ⟨rfl, rfl, hlonger⟩
      exact ⟨rfl, rfl, by rw [hlonger, Bool.and_false]⟩
  · rintro e s1 ⟨rfl, rfl, hindex⟩
    exact ⟨rfl, rfl, by rw [hindex, Bool.false_and]⟩

/-! ### A machine with room -/

/-- How many bytes a call puts in. -/
def Call.payload : Call → Nat
  | .bytes content => content.length
  | _ => 0

/-- Neither the charge nor a handle passes the numbers of the machine. -/
structure InRange (s : Store) (call : Call) : Prop where
  charged : s.charged + call.charge < 2 ^ 64
  types : s.types.size < 2 ^ 32
  values : s.values.size < 2 ^ 32

theorem require_run {kept : Bool} (h : kept = true) : require kept s = .ok () s := by
  rw [require, if_pos h]

theorem chargeWord_run (h : s.charged + n < 2 ^ 64) : chargeWord n s = charge n s :=
  (bind_run rfl).trans (bind_run (require_run (decide_eq_true h)))

theorem charge_ok {u : Unit} (h : charge n s = .ok u s') : s' = { s with charged := s.charged + n } := by
  rw [charge_run] at h
  split at h
  · exact (EStateM.Result.ok.inj h).2.symm
  · exact absurd h (by simp)

theorem nextIndex_run {m : Memory} {count : Store → Nat} (h : count s < 2 ^ 32) (hlonger : m.longer = true) :
    m.nextIndex count s = .ok (count s) s :=
  (bind_run rfl).trans ((bind_run (require_run (decide_eq_true h))).trans
    ((bind_run (require_run hlonger)).trans rfl))

/-- Within the numbers of the machine, and with the memory that the store counts on, the calls on the
    machine are those of the store. -/
theorem putOn_run (h : s.InRange call) : call.putOn ⟨s.spare, true⟩ s = call.put s := by
  cases call with
  | type node =>
    refine bind_agree (bind_agree (chargeWord_run h.charged) fun _ s1 hs1 => ?_) fun _ _ _ => rfl
    rw [charge_ok hs1]
    exact bind_run (nextIndex_run h.types rfl)
  | value node =>
    refine bind_agree (bind_agree (chargeWord_run h.charged) fun _ s1 hs1 => ?_) fun _ _ _ => rfl
    rw [charge_ok hs1]
    exact bind_run (nextIndex_run h.values rfl)
  | bytes content =>
    refine bind_agree (bind_agree (chargeWord_run h.charged) fun _ s1 hs1 => ?_) fun _ _ _ => rfl
    rw [charge_ok hs1]
    exact (bind_run rfl).symm

end TypedWire.Store
