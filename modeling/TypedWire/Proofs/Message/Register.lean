import TypedWire.Proofs.Message.TypeTable

/-! Building a type table: registering a type keeps every slot linked, whether it succeeds or gives up
    half-way, and when it succeeds all slots that it took are written. -/

namespace TypedWire.TypeTable

open TypedWire.Action

variable {w : Scope} {t t' : TypeTable} {type a : TypeId} {n : TypeNode} {depth : Nat}

/-- What registering a type gives and leaves. -/
structure Registers (w : Scope) (t : TypeTable) (type : TypeId) (code : Int) (t' : TypeTable) :
    Prop where
  stage : Stage w t t'
  refers : t'.Refers w type code
  filled : w.Throughout TypeNode.Canonical type → Filled w t t'

/-- Where no slot is taken, none has to be written. -/
theorem registers_of_slots {slots : List (TypeId × Nat)} {code : Int} (h : Linked w { t with slots })
    (hcode : t.Refers w type code) : Registers w t type code { t with slots } where
  stage := ⟨h, ⟨List.prefix_rfl, List.prefix_rfl, List.prefix_rfl⟩, rfl⟩
  refers := hcode.later List.prefix_rfl
  filled _ _ hle hlt := absurd hlt (Nat.not_lt.mpr hle)

/-- The parts of a node, registered one after another. -/
theorem runs_parts (ih : ∀ t type, t.Linked w →
      Runs (registerWithin w.store w.env depth type) t (Registers w t type) fun _ => Stage w t) :
    ∀ (types : List TypeId) (t : TypeTable), t.Linked w →
      Runs (types.forM fun part => do let _ ← registerWithin w.store w.env depth part) t
        (fun _ t' => Stage w t t' ∧ ((∀ c ∈ types, w.Throughout TypeNode.Canonical c) → Filled w t t'))
        fun _ => Stage w t
  | [], t, h => ⟨h.stage, fun _ => .refl w t⟩
  | c :: rest, t, h => by
    refine runs_bind (runs_bind ((ih t c h).post_mono ?_))
    rintro - t1 ⟨hs1, -, hf1⟩
    refine runs_pure ((runs_parts ih rest t1 hs1.linked).mono ?_ fun _ _ hs2 => hs1.trans hs2)
    rintro - t2 ⟨hs2, hf2⟩
    refine ⟨hs1.trans hs2, fun hall => ?_⟩
    rw [List.forall_mem_cons] at hall
    exact (hf1 hall.1).trans (hf2 hall.2) hs2.later

/-- What is done for a type that is met for the first time. -/
def registerNew (w : Scope) (depth : Nat) (type actual : TypeId) (node : TypeNode) :
    Action TypeTable Int := do
  let slot ← takeSlot actual
  assign [type, actual] slot
  (parts node).forM fun part => do
    let _ ← registerWithin w.store w.env depth part
  let entry ← Action.ofExcept ((← get).encodeNode w.store w.env node)
  modify fun t => { t with entries := t.entries.setIfInBounds slot entry }
  return (slot : Int)

/-- A type that was met for the first time: its slot is taken, its parts are registered, and then the
    slot is filled. -/
theorem runs_newSlot (h : t.Linked w) (hs : w.StandsFor type a n) (hn : n.kind.isPrimitive = false)
    (ih : ∀ t type, t.Linked w →
      Runs (registerWithin w.store w.env depth type) t (Registers w t type) fun _ => Stage w t) :
    Runs (registerNew w depth type a n) t (Registers w t type) fun _ => Stage w t := by
  have htaken := h.takeSlot hs.root hn
  have hlast : (t.registered.push a)[t.entries.size]? = some a := by
    rw [h.size, Array.getElem?_push_size]
  have halias : ∀ c ∈ [type, a], w.Alias c a := by
    simpa using ⟨Scope.Alias.root hs, Scope.Alias.refl a⟩
  have hassigned := htaken.assign hlast halias
  have hstage : Stage w t { t with
      slots := [type, a].map (·, t.entries.size) ++ t.slots
      entries := t.entries.push []
      registered := t.registered.push a } :=
    ⟨hassigned, ⟨by simp, by simp, List.prefix_rfl⟩, rfl⟩
  refine runs_bind (runs_of_ok rfl (runs_bind (runs_of_ok rfl (runs_bind ?_))))
  refine (runs_parts ih (parts n) _ hassigned).mono ?_ fun _ _ hs2 => hstage.trans hs2
  rintro - t2 ⟨hs2, hf2⟩
  have hstage2 := hstage.trans hs2
  refine runs_bind (runs_of_ok rfl (runs_bind (runs_answer (fun entry hentry => ?_) fun _ _ => hstage2)))
  have hslot : t2.registered[t.entries.size]? = some a := getElem?_of_front hs2.later.registered hlast
  refine runs_bind (runs_of_ok rfl (runs_pure
    ⟨⟨hs2.linked.fill entry, ?_, hstage2.args⟩, .inr ⟨_, a, hslot, .root hs, rfl⟩, fun hall => ?_⟩))
  · exact ⟨hstage2.later.registered, prefix_set entry hstage2.later.entries (by simp),
      hstage2.later.args⟩
  -- The slot itself is written now; the others are left alone.
  intro k hle hlt
  simp only [Array.size_setIfInBounds] at hlt
  by_cases hk : t.entries.size = k
  · obtain ⟨code, hcode⟩ := hs2.linked.codes
    obtain ⟨rfl, hparts⟩ := encodeNode_eq_ok hcode hentry
    subst hk
    refine ⟨a, n, code, hslot, hs.root, hall.node hs, hparts, ?_⟩
    simp [Array.getElem?_setIfInBounds_self_of_lt hlt]
  · have hbefore : t2.Written w k := hf2 (fun c hc => hall.part hs hc) k (by simp; omega) hlt
    exact hbefore.fill_ne hk entry

theorem runs_registerWithin : ∀ (depth : Nat) (t : TypeTable) (type : TypeId), t.Linked w →
    Runs (registerWithin w.store w.env depth type) t (Registers w t type) fun _ => Stage w t
  | 0, t, type, h => runs_fail h.stage
  | depth + 1, t, type, h => by
    have hnone := h.stage
    unfold registerWithin
    refine runs_bind (runs_of_ok rfl ?_)
    split
    · next slot hslot => exact runs_pure (registers_of_slots h (h.refers (.refl type) hslot))
    refine runs_bind (runs_answer (fun actual hactual => ?_) fun _ _ => hnone)
    refine runs_bind (runs_of_ok rfl ?_)
    obtain ⟨n, hs⟩ := Scope.StandsFor.of_follow hactual
    split
    · next slot hslot =>
      obtain ⟨a, ha, halias⟩ := h.slot actual slot (slot?_eq_some hslot)
      have htypes : ∀ c ∈ [type], w.Alias c a := by simpa using .trans (.root hs) halias
      exact runs_bind (runs_of_ok rfl (runs_pure
        (registers_of_slots (h.assign ha htypes) (h.refers (.root hs) hslot))))
    refine runs_bind (runs_answer (fun node hnode => ?_) fun _ _ => hnone)
    obtain rfl : node = n := Except.ok.inj (hnode.symm.trans hs.node)
    split
    · next p => exact runs_pure (registers_of_slots h (.inl ⟨actual, p, hs, rfl⟩))
    next hprim =>
    refine runs_bind (runs_of_ok rfl (runs_bind (runs_answer (fun found hfound => ?_) fun _ _ => hnone)))
    split
    · next slot =>
      obtain ⟨i, a, rfl, ha, halias⟩ := findEqual_eq_some hfound
      rw [Array.getElem?_toList] at ha
      rw [Nat.zero_add]
      have htypes : ∀ c ∈ [type, actual], w.Alias c a := by
        simpa using ⟨.trans (.root hs) halias.symm, halias.symm⟩
      exact runs_bind (runs_of_ok rfl (runs_pure
        (registers_of_slots (h.assign ha htypes) (.inr ⟨i, a, ha, htypes type (by simp), rfl⟩))))
    · have hn : node.kind.isPrimitive = false := by
        cases node with
        | primitive p => exact absurd rfl (hprim p)
        | _ => rfl
      exact runs_newSlot h hs hn fun t type ht => runs_registerWithin depth t type ht

/-- Adding an argument of a type: on success there is one argument more, and the table is complete
    again. -/
theorem runs_addArg (h : t.Complete w) (type : TypeId) :
    Runs (addArg w.store w.env type) t
      (fun _ t' => t'.Linked w ∧ t.Later t' ∧ t'.args = t.args.push type ∧
        (∃ code, t'.Refers w type code) ∧
        (w.Throughout TypeNode.Canonical type → t'.Complete w))
      fun _ t' => t'.Linked w ∧ t.Later t' := by
  refine runs_bind ((runs_registerWithin _ t type h.toLinked).mono ?_
    fun _ _ hs => ⟨hs.linked, hs.later⟩)
  rintro code t1 ⟨hs, hcode, hf⟩
  have hlinked : Linked w { t1 with args := t1.args.push type } :=
    ⟨hs.linked.size, hs.linked.root, hs.linked.slot⟩
  have hlater : t.Later { t1 with args := t1.args.push type } := by
    refine ⟨hs.later.registered, hs.later.entries, hs.later.args.trans ?_⟩
    simp
  refine runs_of_ok rfl ⟨hlinked, hlater, congrArg (·.push type) hs.args,
    ⟨code, hcode.later List.prefix_rfl⟩, fun hall => ?_⟩
  refine h.filled hlinked hlater fun k hle hlt => ?_
  exact (hf hall k hle hlt).later List.prefix_rfl fun _ => id

end TypedWire.TypeTable
