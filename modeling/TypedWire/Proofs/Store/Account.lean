import Mathlib.Algebra.GroupWithZero.Nat
import TypedWire.Proofs.Store.Machine

/-! What a store has charged. Everything that is in the store was charged when it was put in, and was charged
    once. A call that the limit refuses leaves the store as it was; one that is refused after it was charged,
    because memory or a number of the machine gives out, leaves the nodes and what they are found under, but
    its charge stays. So the charge of a store is that of its contents and of the calls that were lost this
    way. -/

namespace TypedWire.Store

open TypedWire.Action

variable {s s' s'' : Store} {n : Nat} {m : Memory} {call : Call}

/-! ### One call -/

/-- What a call puts in among the types. -/
def Call.types : Call → List TypeNode
  | .type node => [node]
  | _ => []

/-- What a call puts in among the values. -/
def Call.values : Call → List Value
  | .value node => [node]
  | _ => []

/-- Whether the machine has a place for what the call puts in. -/
def Call.takes (m : Memory) (s : Store) : Call → Bool
  | .type _ => s.types.size < 2 ^ 32 && m.longer
  | .value _ => s.values.size < 2 ^ 32 && m.longer
  | .bytes content => s.takes m.spare content.length

/-- At the place there is what the call was given. -/
def Finds (s : Store) : Place → Call → Prop
  | .type t, .type node => s.typeAt t = .ok node
  | .value v, .value node => s.valueAt v = .ok node
  | .span p, .bytes content => s.bytesAt p = .ok content
  | _, _ => False

theorem Extends.finds (h : s.Extends s') {place : Place} (hp : s.Finds place call) :
    s'.Finds place call := by
  cases place <;> cases call <;> first | exact hp.elim | skip
  · exact h.typeAt _ _ hp
  · exact h.valueAt _ _ hp
  · exact h.bytesAt _ _ hp

/-- What calls have made of a store: those that were kept are in it, and those that were lost are paid for
    all the same. -/
structure Account (s : Store) (kept lost : List Call) (s' : Store) : Prop extends s.Extends s' where
  types : s'.types.toList = s.types.toList ++ kept.flatMap Call.types
  values : s'.values.toList = s.values.toList ++ kept.flatMap Call.values
  charged : s'.charged = s.charged + (kept.map Call.charge).sum + (lost.map Call.charge).sum
  bound : s.affords 0 = true → s'.affords 0 = true

theorem Account.refl (s : Store) : s.Account [] [] s :=
  ⟨.refl s, by simp, by simp, rfl, id⟩

theorem Account.trans {kept kept' lost lost' : List Call} (h : s.Account kept lost s')
    (h' : s'.Account kept' lost' s'') : s.Account (kept ++ kept') (lost ++ lost') s'' where
  toExtends := h.toExtends.trans h'.toExtends
  types := by rw [h'.types, h.types, List.flatMap_append, List.append_assoc]
  values := by rw [h'.values, h.values, List.flatMap_append, List.append_assoc]
  charged := by
    rw [h'.charged, h.charged, List.map_append, List.map_append, List.sum_append, List.sum_append]
    omega
  bound hs := h'.bound (h.bound hs)

/-- What was afforded leaves the store within its limit. -/
theorem affords_zero (hafford : s.affords n = true) (hcharged : s'.charged = s.charged + n)
    (hlimit : s'.limit = s.limit) : s'.affords 0 = true := by
  unfold affords allows at hafford ⊢
  rw [hcharged, hlimit]
  exact hafford

/-- A call that was charged, and for which more was put into the blocks, if anything. -/
theorem account_lost (call : Call) (hafford : s.affords call.charge = true)
    (hfills : FillsUp { s with charged := s.charged + call.charge } s') : s.Account [] [call] s' := by
  obtain ⟨blocks, hc, rfl⟩ := hfills
  refine ⟨⟨fun _ _ => id, fun _ _ => id, fun _ _ => Continues.bytesAt hc, rfl, rfl⟩, ?_, ?_, ?_, ?_⟩
  · simp
  · simp
  · simp
  · exact fun _ => affords_zero hafford rfl rfl

theorem account_bytes (content : List UInt8) (hafford : s.affords content.length = true)
    (hfills : FillsUp { s with charged := s.charged + content.length } s') :
    s.Account [.bytes content] [] s' := by
  obtain ⟨hs, htypes, hvalues, hcharged, hbound⟩ := account_lost (.bytes content) hafford hfills
  refine ⟨hs, ?_, ?_, ?_, hbound⟩
  · simpa [Call.types] using htypes
  · simpa [Call.values] using hvalues
  · simpa using hcharged

theorem account_type (node : TypeNode) (hafford : s.affords typeCharge = true) :
    s.Account [.type node] []
      { s with charged := s.charged + typeCharge, types := s.types.push node } := by
  refine ⟨⟨fun t x hx => ?_, fun _ _ => id, fun _ _ => id, rfl, rfl⟩, ?_, ?_, ?_, ?_⟩
  · rw [typeAt_eq_ok] at hx ⊢
    exact getElem?_push_of_some hx
  · simp [Call.types]
  · simp [Call.values]
  · simp [Call.charge]
  · exact fun _ => affords_zero hafford rfl rfl

theorem account_value (node : Value) (hafford : s.affords valueCharge = true) :
    s.Account [.value node] []
      { s with charged := s.charged + valueCharge, values := s.values.push node } := by
  refine ⟨⟨fun _ _ => id, fun v x hx => ?_, fun _ _ => id, rfl, rfl⟩, ?_, ?_, ?_, ?_⟩
  · rw [valueAt_eq_ok] at hx ⊢
    exact getElem?_push_of_some hx
  · simp [Call.types]
  · simp [Call.values]
  · simp [Call.charge]
  · exact fun _ => affords_zero hafford rfl rfl

/-- What a call on a machine comes to: it ends well exactly if it can be paid and the machine has a place.
    Else it finds the store full; if it could not be paid, the store is as it was. -/
def Performs (m : Memory) (call : Call) (s : Store) (x : Action Store Place) : Prop :=
  Runs x s
    (fun p s' => s.affords call.charge = true ∧ call.takes m s = true ∧ s'.Finds p call ∧
      s.Account [call] [] s')
    fun e s' => e = .storeFull ∧ (s.affords call.charge = false ∧ s' = s ∨
      s.affords call.charge = true ∧ call.takes m s = false ∧ s.Account [] [call] s')

/-- The charge comes first. -/
theorem performs_paid (call : Call) {x : Action Store Place}
    (h : s.affords call.charge = true → Runs x { s with charged := s.charged + call.charge }
      (fun p s' => call.takes m s = true ∧ s'.Finds p call ∧ s.Account [call] [] s')
      fun e s' => e = .storeFull ∧ call.takes m s = false ∧
        FillsUp { s with charged := s.charged + call.charge } s') :
    Performs m call s (chargeWord call.charge >>= fun _ => x) := by
  refine runs_bind ((runs_chargeWord s call.charge).mono ?_ ?_)
  · rintro - s1 ⟨rfl, hafford⟩
    refine (h hafford).mono ?_ ?_
    · rintro p s' ⟨htakes, hp, hs⟩
      exact ⟨hafford, htakes, hp, hs⟩
    · rintro e s' ⟨rfl, htakes, hfills⟩
      exact ⟨rfl, .inr ⟨hafford, htakes, account_lost call hafford hfills⟩⟩
  · rintro e s' ⟨rfl, rfl, hrefused⟩
    exact ⟨rfl, .inl ⟨hrefused, rfl⟩⟩

theorem performs_putOn (m : Memory) (call : Call) (s : Store) : Performs m call s (call.putOn m) := by
  cases call with
  | type node =>
    rw [Call.putOn, Memory.putType, bind_assoc]
    refine performs_paid (.type node) fun hafford => ?_
    refine runs_bind (runs_bind ((runs_nextIndex m _ _).mono ?_ ?_))
    · rintro index s1 ⟨rfl, rfl, htakes⟩
      refine runs_of_ok rfl (runs_pure ⟨htakes, ?_, account_type node hafford⟩)
      simp [Finds, typeAt_eq_ok]
    · rintro e s1 ⟨rfl, rfl, htakes⟩
      exact ⟨rfl, htakes, .refl _⟩
  | value node =>
    rw [Call.putOn, Memory.putValue, bind_assoc]
    refine performs_paid (.value node) fun hafford => ?_
    refine runs_bind (runs_bind ((runs_nextIndex m _ _).mono ?_ ?_))
    · rintro index s1 ⟨rfl, rfl, htakes⟩
      refine runs_of_ok rfl (runs_pure ⟨htakes, ?_, account_value node hafford⟩)
      simp [Finds, valueAt_eq_ok]
    · rintro e s1 ⟨rfl, rfl, htakes⟩
      exact ⟨rfl, htakes, .refl _⟩
  | bytes content =>
    rw [Call.putOn, Memory.putBytes, bind_assoc]
    refine performs_paid (.bytes content) fun hafford => ?_
    refine runs_bind ((runs_place m.spare content _).mono ?_ ?_)
    · rintro p s1 ⟨hplaces, hp, htakes⟩
      exact runs_pure ⟨htakes, hp, account_bytes content hafford hplaces.fillsUp⟩
    · rintro e s1 ⟨hfills, rfl, htakes, -⟩
      exact ⟨rfl, htakes, hfills⟩

/-! ### Calls one after another -/

/-- What is known of an event. -/
structure Event.Fair (e : Event) : Prop where
  succeeds : (∃ p, e.answer = .ok p) ↔
    e.before.affords e.call.charge = true ∧ e.call.takes e.memory e.before = true
  found : ∀ p, e.answer = .ok p → e.after.Finds p e.call
  fails : ∀ fault, e.answer = .error fault → fault = .storeFull ∧
    if e.before.affords e.call.charge then e.before.Account [] [e.call] e.after else e.after = e.before
  account : e.before.Account e.kept?.toList e.lost?.toList e.after

theorem event_fair (s : Store) (m : Memory) (call : Call) : (s.event m call).Fair := by
  have hevent := (performs_putOn m call s).and (runs_outcome (call.putOn m) s)
  rcases hevent.ends with ⟨p, s', hrun, ⟨hafford, htakes, hp, hs⟩, -⟩ | ⟨e, s', hrun, ⟨rfl, hrefused⟩, -⟩
  · have hok : s.event m call = ⟨s, m, call, .ok p, s'⟩ := by
      rw [event, outcome_eq_ok.mpr hrun]
    rw [hok]
    refine ⟨iff_of_true ⟨p, rfl⟩ ⟨hafford, htakes⟩, ?_, ?_, hs⟩
    · rintro _ ⟨⟩
      exact hp
    · rintro _ ⟨⟩
  · have herror : s.event m call = ⟨s, m, call, .error .storeFull, s'⟩ := by
      rw [event, outcome, hrun]
    rw [herror]
    rcases hrefused with ⟨hrefused, rfl⟩ | ⟨hafford, htakes, hs⟩
    · refine ⟨iff_of_false (by simp) (by simp [hrefused]), by simp, ?_, ?_⟩
      · rintro _ ⟨⟩
        exact ⟨rfl, by simp [hrefused]⟩
      · simpa [Event.kept?, Event.lost?, hrefused] using Account.refl s'
    · refine ⟨iff_of_false (by simp) (by simp [htakes]), by simp, ?_, ?_⟩
      · rintro _ ⟨⟩
        exact ⟨rfl, by simpa [hafford] using hs⟩
      · simpa [Event.kept?, Event.lost?, hafford] using hs

/-- What calls leave is accounted for by their events, and each of them is still as it was answered. -/
theorem events_account (calls : List (Memory × Call)) (s : Store) :
    s.Account ((s.events calls).filterMap Event.kept?) ((s.events calls).filterMap Event.lost?)
      (s.afterCalls calls) ∧
    ∀ e ∈ s.events calls, e.Fair ∧ e.after.Extends (s.afterCalls calls) := by
  induction calls generalizing s with
  | nil => exact ⟨.refl s, by simp [events]⟩
  | cons c calls ih =>
    obtain ⟨m, call⟩ := c
    have hfirst := event_fair s m call
    obtain ⟨haccount, hrest⟩ := ih (s.event m call).after
    have hafter : s.afterCalls ((m, call) :: calls) = (s.event m call).after.afterCalls calls := rfl
    have hcons : ∀ pick : Event → Option Call, (s.events ((m, call) :: calls)).filterMap pick =
        (pick (s.event m call)).toList ++ ((s.event m call).after.events calls).filterMap pick := by
      intro pick
      rw [events, List.filterMap_cons]
      cases pick (s.event m call) <;> rfl
    rw [hcons, hcons, hafter]
    refine ⟨hfirst.account.trans haccount, List.forall_mem_cons.mpr ⟨⟨hfirst, haccount.toExtends⟩, hrest⟩⟩

/-- The charge of calls is that of the nodes and bytes that they put in. -/
theorem sum_charge (calls : List Call) : (calls.map Call.charge).sum =
    typeCharge * (calls.flatMap Call.types).length + valueCharge * (calls.flatMap Call.values).length +
      (calls.map Call.payload).sum := by
  induction calls with
  | nil => rfl
  | cons call calls ih =>
    have hcall : call.charge =
        typeCharge * call.types.length + valueCharge * call.values.length + call.payload := by
      cases call <;> simp [Call.charge, Call.types, Call.values, Call.payload]
    rw [List.map_cons, List.sum_cons, ih, hcall, List.flatMap_cons, List.flatMap_cons, List.map_cons,
      List.sum_cons, List.length_append, List.length_append, Nat.mul_add, Nat.mul_add]
    omega

/-- The books of a store: the nodes are those that were put in, and what is charged is the charge of every
    node and the length of every byte string, and what the lost calls were charged. -/
structure Balanced (s : Store) (kept lost : List Call) : Prop where
  types : s.types.toList = kept.flatMap Call.types
  values : s.values.toList = kept.flatMap Call.values
  charged : s.charged = typeCharge * s.types.size + valueCharge * s.values.size +
    (kept.map Call.payload).sum + (lost.map Call.charge).sum

theorem Account.balanced {kept lost : List Call} (h : s.cleared.Account kept lost s') :
    s'.Balanced kept lost := by
  have htypes : s'.types.toList = kept.flatMap Call.types := by simpa [cleared] using h.types
  have hvalues : s'.values.toList = kept.flatMap Call.values := by simpa [cleared] using h.values
  refine ⟨htypes, hvalues, ?_⟩
  rw [h.charged, sum_charge, ← htypes, ← hvalues, Array.length_toList, Array.length_toList]
  simp [cleared]

/-! ### The account of a store -/

/-- The account of a store, whatever its limit and its blocks, after any calls since it was cleared. What is
    charged is the charge of every node and the length of every byte string in it, and the charge of the
    calls that were lost, which is never above the limit. A call ends well exactly if it can be paid and the
    machine has a place; what it answers finds what it was given, then and after all later calls. A call
    that fails finds the store full and leaves the nodes and all that is found as they were; if it could not
    be paid, nothing has changed at all, and if it could, it is lost: its charge stays. As long as the charge
    and the handles keep within their numbers, and memory gives what the store counts on, the calls are those
    of the store. -/
theorem account_balanced (s : Store) (calls : List (Memory × Call)) :
    (s.cleared.afterCalls calls).Balanced ((s.cleared.events calls).filterMap Event.kept?)
      ((s.cleared.events calls).filterMap Event.lost?) ∧
    (∀ limit, s.limit = some limit → (s.cleared.afterCalls calls).charged ≤ limit) ∧
    (∀ e ∈ s.cleared.events calls, e.Fair ∧
      ∀ p, e.answer = .ok p → (s.cleared.afterCalls calls).Finds p e.call) ∧
    ∀ (store : Store) (call : Call), store.InRange call →
      call.putOn ⟨store.spare, true⟩ store = call.put store := by
  obtain ⟨haccount, hevents⟩ := events_account calls s.cleared
  refine ⟨haccount.balanced, fun limit hlimit => ?_, fun e he => ?_, fun _ _ => putOn_run⟩
  · have hstart : s.cleared.affords 0 = true := by simp [affords, allows, cleared]
    have hend := haccount.bound hstart
    have hkept : (s.cleared.afterCalls calls).limit = some limit := haccount.limit.trans hlimit
    rw [affords, allows, hkept, Bool.and_eq_true] at hend
    exact of_decide_eq_true hend.2
  · obtain ⟨hfair, hlater⟩ := hevents e he
    exact ⟨hfair, fun p hp => hlater.finds (hfair.found p hp)⟩

/-- A store that may hold one type, and whose blocks are too large for memory. -/
def overlarge : Store where
  blockSize := 2 ^ 48
  limit := some typeCharge

/-- A byte that finds no block is charged, and then there is no charge left for a type that could be paid
    before. -/
theorem overlarge_loses : ∃ lost, putBytes [0x00] overlarge = .error .storeFull lost ∧
    lost.types = overlarge.types ∧ lost.values = overlarge.values ∧ lost.blocks = overlarge.blocks ∧
    lost.charged = overlarge.charged + 1 ∧
    (∃ t s, putType (.primitive .nat) overlarge = .ok t s) ∧
    putType (.primitive .nat) lost = .error .storeFull lost :=
  ⟨{ overlarge with charged := 1 }, rfl, rfl, rfl, rfl, rfl, ⟨_, _, rfl⟩, rfl⟩

end TypedWire.Store
