import TypedWire.Proofs.Growth
import TypedWire.Proofs.Message.Place
import TypedWire.Proofs.Value.Depth

/-! The slots noted in a table only remember what a search among the registered types finds. This is
    kept by building, whether it succeeds or gives up half-way, and by taking back what was built. So
    the number that a type gets depends on the registered types alone, and not on what else has been
    noted, or forgotten again, on the way. -/

namespace TypedWire.TypeTable

open TypedWire.Action

variable {w w' : Scope} {t t' t'' : TypeTable} {a c r : TypeId} {n : TypeNode} {types : List TypeId}
variable {slot depth : Nat} {i : Int}

/-- Each registered type is one with parts, at the handle where it lies, and none is registered twice;
    and a slot that is noted for a type is the one that a search finds. -/
structure Faithful (w : Scope) (t : TypeTable) : Prop where
  size : t.entries.size = t.registered.size
  root : ∀ a ∈ t.registered.toList, ∃ n, w.StandsFor a a n ∧ n.kind.isPrimitive = false
  distinct : t.registered.toList.Nodup
  noted : ∀ (c : TypeId) (slot : Nat), (c, slot) ∈ t.slots →
    number? w t.registered.toList c = .ok (some slot)

theorem faithful_empty (w : Scope) : Faithful w {} := ⟨rfl, by simp, by simp, by simp⟩

/-- No number of a type without parts is that of a slot. -/
theorem Faithful.not_primitive (h : t.Faithful w) (hc : (c, slot) ∈ t.slots) {p : Primitive} :
    ¬ w.StandsFor c r (.primitive p) := by
  intro hs
  have hnumber := (number?_primitive hs).symm.trans (h.noted c slot hc)
  have hcode : p.opcode = slot := by simpa using hnumber
  have := Header.opcode_neg p
  omega

/-- The type that took a noted slot. -/
theorem Faithful.place (h : t.Faithful w) (hc : (c, slot) ∈ t.slots) : ∃ r n, w.StandsFor c r n ∧
    n.kind.isPrimitive = false ∧ findEqual w.store w.env r 0 t.registered.toList = .ok (some slot) := by
  rcases number?_cases (h.noted c slot hc) with ⟨r, p, hs, -⟩ | ⟨r, n, found, hs, hn, hfound, hslot⟩
  · exact absurd hs (h.not_primitive hc)
  · cases found with
    | none => simp at hslot
    | some k =>
      obtain rfl : slot = k := by simpa using hslot
      exact ⟨r, n, hs, hn, hfound⟩

theorem Faithful.linked (h : t.Faithful w) : t.Linked w where
  size := h.size
  root k a ha := by
    rw [← Array.getElem?_toList] at ha
    exact h.root a (List.mem_of_getElem? ha)
  slot c slot hc := by
    obtain ⟨r, n, hs, -, hfound⟩ := h.place hc
    obtain ⟨i, a, rfl, ha, halias⟩ := findEqual_eq_some hfound
    rw [Array.getElem?_toList, ← Nat.zero_add i] at ha
    exact ⟨a, ha, .trans (.root hs) halias.symm⟩

theorem Faithful.extends (h : t.Faithful w) (hw : w.Extends w') : t.Faithful w' where
  size := h.size
  root a ha := by
    obtain ⟨n, hs, hn⟩ := h.root a ha
    exact ⟨n, hs.extends hw, hn⟩
  distinct := h.distinct
  noted c slot hc := number?_later hw List.prefix_rfl (h.noted c slot hc)

/-- There are no more slots than types. -/
theorem Faithful.size_le (h : t.Faithful w) : t.registered.size ≤ w.store.types.size := by
  have hsub : t.registered.toList ⊆ w.store.typeIds := fun a ha => by
    obtain ⟨n, hs, -⟩ := h.root a ha
    exact Store.mem_typeIds hs.node
  simpa using (List.subperm_of_subset h.distinct hsub).length_le

/-! ### Writing -/

/-- What is written for a type is its number. -/
theorem Faithful.encodeRef (h : t.Faithful w) (hc : t.Numbered w c) :
    ∃ i, number? w t.registered.toList c = .ok (some i) ∧
      t.encodeRef w.store w.env c = .ok (Leb128.encodeSigned i) := by
  obtain ⟨bytes, hbytes⟩ := h.linked.encodeRef_ok hc
  have hwritten := hbytes
  simp only [TypeTable.encodeRef, Except.bind_eq_ok] at hbytes
  obtain ⟨n, hn, hbytes⟩ := hbytes
  split at hbytes
  · next p =>
    exact ⟨p.opcode, number?_primitive (.of_node hn (by simp)),
      hwritten.trans (congrArg _ (Except.pure_eq_ok.mp hbytes).symm)⟩
  split at hbytes
  · next slot hslot =>
    exact ⟨slot, h.noted c slot (slot?_eq_some hslot),
      hwritten.trans (congrArg _ (Except.pure_eq_ok.mp hbytes).symm)⟩
  next hslot =>
  -- No slot is noted for it, so it stands for a type without parts.
  rcases hc with ⟨r, p, hs⟩ | ⟨slot, hc⟩
  · refine ⟨p.opcode, number?_primitive hs, hwritten.trans (congrArg _ ?_)⟩
    split at hbytes
    · simp only [hs.follow, Except.bind_eq_ok, Except.ok.injEq, exists_eq_left', hs.node] at hbytes
      exact (Except.pure_eq_ok.mp hbytes).symm
    · simp at hbytes
  · obtain ⟨j, hj⟩ := slot?_of_mem hc
    exact absurd hj (hslot j)

theorem Faithful.refers (h : t.Faithful w) (hc : t.Numbered w c) : ∃ code, t.Refers w c code := by
  obtain ⟨i, -, hwritten⟩ := h.encodeRef hc
  obtain ⟨code, -, hrefers⟩ := h.linked.encodeRef hwritten
  exact ⟨code, hrefers⟩

/-! ### Building -/

theorem Faithful.assign (h : t.Faithful w)
    (htypes : ∀ c ∈ types, number? w t.registered.toList c = .ok (some slot)) :
    Faithful w { t with slots := types.map (·, slot) ++ t.slots } where
  size := h.size
  root := h.root
  distinct := h.distinct
  noted c j hcj := by
    rcases List.mem_append.mp hcj with hcj | hcj
    · obtain ⟨d, hd, heq⟩ := List.mem_map.mp hcj
      cases heq
      exact htypes _ hd
    · exact h.noted c j hcj

theorem Faithful.takeSlot (h : t.Faithful w) (hs : w.StandsFor a a n) (hn : n.kind.isPrimitive = false)
    (hnew : findEqual w.store w.env a 0 t.registered.toList = .ok none) :
    Faithful w { t with entries := t.entries.push [], registered := t.registered.push a } where
  size := by simp [h.size]
  root b hb := by
    rw [Array.toList_push] at hb
    rcases List.mem_append.mp hb with hb | hb
    · exact h.root b hb
    · exact List.mem_singleton.mp hb ▸ ⟨n, hs, hn⟩
  distinct := by
    rw [Array.toList_push]
    refine h.distinct.append (List.nodup_singleton a) ?_
    exact List.disjoint_singleton.mpr (not_mem_of_findEqual hnew)
  noted c j hcj := by
    rw [Array.toList_push]
    exact number?_later (.refl w) (List.prefix_append _ _) (h.noted c j hcj)

theorem Faithful.fill (h : t.Faithful w) (entry : List UInt8) :
    Faithful w { t with entries := t.entries.setIfInBounds slot entry } where
  size := by simpa using h.size
  root := h.root
  distinct := h.distinct
  noted := h.noted

/-- What was noted for the types that are kept is what a search among them finds. -/
theorem Faithful.restore (h : t.Faithful w) (hlater : t.Later t') (h' : t'.Faithful w) :
    (t'.restore t.mark).Faithful w := by
  rw [hlater.restore h.size]
  refine ⟨h.size, h.root, h.distinct, fun c slot hc => ?_⟩
  rw [List.mem_filter, decide_eq_true_eq] at hc
  obtain ⟨r, n, hs, hn, hfound⟩ := h'.place hc.1
  obtain ⟨more, hmore⟩ := hlater.registered
  rw [← hmore] at hfound
  have hfront := findEqual_front hfound (by simpa [← h.size] using hc.2)
  exact (number?_composite hs hn).mpr hfront

/-! ### Registering -/

/-- What is done for a type with parts, by the slot of a registered one that is the same, if any. -/
def registerAt (w : Scope) (depth : Nat) (type actual : TypeId) (node : TypeNode) :
    Option Nat → Action TypeTable Int
  | some slot => do
    assign [type, actual] slot
    return slot
  | none => registerNew w depth type actual node

/-- How registering a type goes on from the number that it has already, if any. -/
inductive Meets (w : Scope) (t : TypeTable) (depth : Nat) (c : TypeId) : Except Fault (Option Int) → Prop where
  | found {i : Int} (slots : List (TypeId × Nat)) :
      registerWithin w.store w.env (depth + 1) c t = .ok i { t with slots } → t.slots <:+ slots →
      Faithful w { t with slots } → Numbered w { t with slots } c → Meets w t depth c (.ok (some i))
  | fault {e : Fault} : registerWithin w.store w.env (depth + 1) c t = .error e t →
      Meets w t depth c (.error e)
  | new {r : TypeId} {n : TypeNode} : w.StandsFor c r n → n.kind.isPrimitive = false →
      findEqual w.store w.env r 0 t.registered.toList = .ok none →
      registerWithin w.store w.env (depth + 1) c t = registerNew w depth c r n t →
      Meets w t depth c (.ok none)

theorem registerWithin_noted {j : Nat} (hslot : t.slot? c = some j) :
    registerWithin w.store w.env (depth + 1) c t = .ok j t := by
  rw [registerWithin]
  refine (bind_run rfl).trans ?_
  rw [hslot]
  rfl

theorem registerWithin_lost {e : Fault} (hslot : t.slot? c = none)
    (hfollow : w.env.follow w.store c = .error e) :
    registerWithin w.store w.env (depth + 1) c t = .error e t := by
  rw [registerWithin]
  refine (bind_run rfl).trans ?_
  rw [hslot, hfollow]
  rfl

section Followed

variable (hslot : t.slot? c = none) (hs : w.StandsFor c r n)
include hslot hs

theorem registerWithin_root {j : Nat} (hactual : t.slot? r = some j) :
    registerWithin w.store w.env (depth + 1) c t =
      .ok j { t with slots := [c].map (·, j) ++ t.slots } := by
  rw [registerWithin]
  refine (bind_run rfl).trans ?_
  rw [hslot]
  refine (answer_run hs.follow).trans ((bind_run rfl).trans ?_)
  rw [hactual]
  rfl

variable (hactual : t.slot? r = none)
include hactual

theorem registerWithin_primitive {p : Primitive} (hp : n = .primitive p) :
    registerWithin w.store w.env (depth + 1) c t = .ok p.opcode t := by
  subst hp
  rw [registerWithin]
  refine (bind_run rfl).trans ?_
  rw [hslot]
  refine (answer_run hs.follow).trans ((bind_run rfl).trans ?_)
  rw [hactual]
  exact (answer_run hs.node).trans rfl

theorem registerWithin_composite (hn : n.kind.isPrimitive = false) :
    registerWithin w.store w.env (depth + 1) c t =
      (Action.ofExcept (findEqual w.store w.env r 0 t.registered.toList) >>=
        registerAt w depth c r n) t := by
  rw [registerWithin]
  refine (bind_run rfl).trans ?_
  rw [hslot]
  refine (answer_run hs.follow).trans ((bind_run rfl).trans ?_)
  rw [hactual]
  refine (answer_run hs.node).trans ?_
  cases n with
  | primitive p => exact absurd hn (by simp [TypeNode.kind, Kind.isPrimitive])
  | _ =>
    refine congrFun (congrArg (Action.ofExcept _ >>= ·) (funext fun found => ?_)) t
    cases found <;> rfl

end Followed

/-- A type with parts of which nothing is noted is searched for. -/
theorem meets_composite (h : t.Faithful w) (hslot : t.slot? c = none) (hs : w.StandsFor c r n)
    (hactual : t.slot? r = none) (hn : n.kind.isPrimitive = false) :
    Meets w t depth c (number? w t.registered.toList c) := by
  have hgo : registerWithin w.store w.env (depth + 1) c t = _ :=
    registerWithin_composite hslot hs hactual hn
  cases hfound : findEqual w.store w.env r 0 t.registered.toList with
  | error e =>
    rw [number?_eq hs hn, hfound]
    refine .fault (hgo.trans ?_)
    rw [hfound]
    rfl
  | ok found =>
    rw [(number?_composite hs hn).mpr hfound]
    cases found with
    | none => exact .new hs hn hfound (hgo.trans (answer_run hfound))
    | some k =>
      refine .found ([c, r].map (·, k) ++ t.slots) (hgo.trans (answer_run hfound))
        (List.suffix_append _ _) (h.assign ?_) (.inr ⟨k, by simp⟩)
      simpa using ⟨(number?_composite hs hn).mpr hfound, (number?_composite hs.root hn).mpr hfound⟩

theorem meets_registerWithin (h : t.Faithful w) (depth : Nat) (c : TypeId) :
    Meets w t depth c (number? w t.registered.toList c) := by
  cases hslot : t.slot? c with
  | some j =>
    have hc := slot?_eq_some hslot
    rw [h.noted c j hc]
    exact .found t.slots (registerWithin_noted hslot) List.suffix_rfl h (.inr ⟨j, hc⟩)
  | none =>
  cases hfollow : w.env.follow w.store c with
  | error e =>
    have hnumber : number? w t.registered.toList c = .error e := by
      rw [number?, hfollow]
      rfl
    rw [hnumber]
    exact .fault (registerWithin_lost hslot hfollow)
  | ok r =>
  obtain ⟨n, hs⟩ := Scope.StandsFor.of_follow hfollow
  cases hactual : t.slot? r with
  | some j =>
    obtain ⟨r', m, hs', hm, hfound⟩ := h.place (slot?_eq_some hactual)
    obtain rfl := hs.root.root_eq hs'
    obtain rfl := hs.node_eq ⟨hs.follow, hs'.node⟩
    have hnumber : number? w t.registered.toList c = .ok (some j) :=
      (number?_composite hs hm).mpr hfound
    rw [hnumber]
    exact .found ([c].map (·, j) ++ t.slots) (registerWithin_root hslot hs hactual)
      (List.suffix_append _ _) (h.assign (by simpa using hnumber)) (.inr ⟨j, by simp⟩)
  | none =>
  cases hprim : n.kind.isPrimitive with
  | true =>
    obtain ⟨p, rfl⟩ : ∃ p, n = .primitive p := by
      cases n with
      | primitive p => exact ⟨p, rfl⟩
      | _ => simp [TypeNode.kind, Kind.isPrimitive] at hprim
    rw [number?_primitive hs]
    exact .found t.slots (registerWithin_primitive hslot hs hactual rfl) List.suffix_rfl h
      (.inl ⟨r, p, hs⟩)
  | false => exact meets_composite h hslot hs hactual hprim

/-! ### What a run leaves -/

/-- What a step of building leaves, whether it gave up or not. -/
structure Further (w : Scope) (t t' : TypeTable) : Prop where
  faithful : t'.Faithful w
  slots : t.slots <:+ t'.slots
  registered : t.registered.toList <+: t'.registered.toList

/-- Each part of a registered type has a number. -/
def Joins (w : Scope) (t : TypeTable) (a : TypeId) : Prop :=
  ∀ n, w.StandsFor a a n → ∀ c ∈ parts n, ∃ code, t.Refers w c code

/-- Each part of the types that `t'` has beyond `t` has a number. -/
def Joined (w : Scope) (t t' : TypeTable) : Prop :=
  ∀ a ∈ t'.registered.toList, a ∈ t.registered.toList ∨ t'.Joins w a

theorem Faithful.further (h : t.Faithful w) : Further w t t := ⟨h, List.suffix_rfl, List.prefix_rfl⟩

theorem Further.trans (h : Further w t t') (h' : Further w t' t'') : Further w t t'' :=
  ⟨h'.faithful, h.slots.trans h'.slots, h.registered.trans h'.registered⟩

theorem Joins.later (hr : t.registered.toList <+: t'.registered.toList) (h : t.Joins w a) :
    t'.Joins w a := by
  intro n hs c hc
  obtain ⟨code, hcode⟩ := h n hs c hc
  exact ⟨code, hcode.later hr⟩

theorem Joined.refl (w : Scope) (t : TypeTable) : Joined w t t := fun _ => .inl

theorem Joined.trans (h : Joined w t t') (h' : Joined w t' t'')
    (hr : t'.registered.toList <+: t''.registered.toList) : Joined w t t'' := by
  intro a ha
  rcases h' a ha with ha | ha
  · exact (h a ha).imp id (.later hr)
  · exact .inr ha

theorem further_parts (ih : ∀ t c, t.Faithful w → Runs (registerWithin w.store w.env depth c) t
      (fun _ t' => Further w t t' ∧ t'.Numbered w c ∧ Joined w t t') fun _ => Further w t) :
    ∀ (types : List TypeId) (t : TypeTable), t.Faithful w →
      Runs (types.forM fun part => do let _ ← registerWithin w.store w.env depth part) t
        (fun _ t' => Further w t t' ∧ (∀ c ∈ types, t'.Numbered w c) ∧ Joined w t t')
        fun _ => Further w t
  | [], t, h => ⟨h.further, by simp, .refl w t⟩
  | c :: rest, t, h => by
    refine runs_bind (runs_bind ((ih t c h).post_mono ?_))
    rintro - t1 ⟨hf1, hc, hj1⟩
    refine runs_pure ((further_parts ih rest t1 hf1.faithful).mono ?_ fun _ _ hf2 => hf1.trans hf2)
    rintro - t2 ⟨hf2, hrest, hj2⟩
    exact ⟨hf1.trans hf2, List.forall_mem_cons.mpr ⟨hc.later hf2.slots, hrest⟩,
      hj1.trans hj2 hf2.registered⟩

/-- The table when the slot of a new type has been taken and noted. -/
def entered (t : TypeTable) (c r : TypeId) : TypeTable :=
  { t with
    slots := [c, r].map (·, t.entries.size) ++ t.slots
    entries := t.entries.push []
    registered := t.registered.push r }

theorem Faithful.entered (h : t.Faithful w) (hs : w.StandsFor c r n) (hn : n.kind.isPrimitive = false)
    (hnew : findEqual w.store w.env r 0 t.registered.toList = .ok none) :
    Further w t (t.entered c r) := by
  have hlast : findEqual w.store w.env r 0 (t.registered.push r).toList = .ok (some t.entries.size) := by
    rw [Array.toList_push, findEqual_last hnew, Array.length_toList, h.size, Nat.zero_add]
  refine ⟨(h.takeSlot hs.root hn hnew).assign ?_, List.suffix_append _ _, by simp [TypeTable.entered]⟩
  simp only [List.forall_mem_cons, List.not_mem_nil, false_implies, implies_true, and_true]
  exact ⟨(number?_composite hs hn).mpr hlast, (number?_composite hs.root hn).mpr hlast⟩

theorem further_registerNew (h : t.Faithful w) (hs : w.StandsFor c r n)
    (hn : n.kind.isPrimitive = false)
    (hnew : findEqual w.store w.env r 0 t.registered.toList = .ok none)
    (ih : ∀ t c, t.Faithful w → Runs (registerWithin w.store w.env depth c) t
      (fun _ t' => Further w t t' ∧ t'.Numbered w c ∧ Joined w t t') fun _ => Further w t) :
    Runs (registerNew w depth c r n) t
      (fun _ t' => Further w t t' ∧ t'.Numbered w c ∧ Joined w t t') fun _ => Further w t := by
  have hentered := h.entered hs hn hnew
  refine runs_bind (runs_of_ok rfl (runs_bind (runs_of_ok rfl (runs_bind ?_))))
  refine (further_parts ih (parts n) _ hentered.faithful).mono ?_ fun _ _ hf => hentered.trans hf
  rintro - t2 ⟨hf2, hparts, hj2⟩
  have hf := hentered.trans hf2
  refine runs_bind (runs_of_ok rfl (runs_bind (runs_answer (fun entry _ => ?_) fun _ _ => hf)))
  have hc : (c, t.entries.size) ∈ t2.slots := hf2.slots.subset (by simp [TypeTable.entered])
  refine runs_bind (runs_of_ok rfl (runs_pure
    ⟨⟨hf.faithful.fill entry, hf.slots, hf.registered⟩, .inr ⟨_, hc⟩, fun a ha => ?_⟩))
  -- The new type has its parts registered by now; the others had theirs before, or have them too.
  have hjoins : t2.Joins w r := by
    intro m hm d hd
    obtain rfl := hs.root.node_eq hm
    exact hf2.faithful.refers (hparts d hd)
  have hr : ∀ {a}, t2.Joins w a → Joins w _ a := fun ha => ha.later List.prefix_rfl
  rcases hj2 a ha with ha | ha
  · rw [TypeTable.entered, Array.toList_push, List.mem_append, List.mem_singleton] at ha
    rcases ha with ha | rfl
    · exact .inl ha
    · exact .inr (hr hjoins)
  · exact .inr (hr ha)

/-- Registering a type keeps the table faithful, however it ends; if it ends well, the type has a
    number, and so have the parts of all types that were registered. -/
theorem further_registerWithin : ∀ (depth : Nat) (t : TypeTable) (c : TypeId), t.Faithful w →
    Runs (registerWithin w.store w.env depth c) t
      (fun _ t' => Further w t t' ∧ t'.Numbered w c ∧ Joined w t t') fun _ => Further w t
  | 0, t, c, h => runs_fail h.further
  | depth + 1, t, c, h => by
    have hmeets := meets_registerWithin h depth c
    generalize number? w t.registered.toList c = number at hmeets
    cases hmeets with
    | found slots hrun hslots hfaithful hc =>
      exact runs_of_ok hrun ⟨⟨hfaithful, hslots, List.prefix_rfl⟩, hc, fun _ => .inl⟩
    | fault hrun => exact runs_of_error hrun h.further
    | new hs hn hnew hrun =>
      have hnewRun := further_registerNew h hs hn hnew (further_registerWithin depth)
      rwa [Runs, ← hrun] at hnewRun

theorem Further.addArg {t1 : TypeTable} (h : Further w t t1) (c : TypeId) :
    Further w t { t1 with args := t1.args.push c } :=
  ⟨⟨h.faithful.size, h.faithful.root, h.faithful.distinct, h.faithful.noted⟩, h.slots, h.registered⟩

/-- Adding an argument keeps the table faithful, and all that was in it. -/
theorem further_addArg (h : t.Faithful w) (c : TypeId) :
    Runs (addArg w.store w.env c) t
      (fun _ t' => Further w t t' ∧ t.Later t' ∧ t'.args = t.args.push c ∧ t'.Numbered w c ∧
        Joined w t t')
      fun _ t' => Further w t t' ∧ t.Later t' := by
  refine runs_bind (((further_registerWithin _ t c h).and
    (runs_registerWithin _ t c h.linked)).mono ?_ fun _ _ hlost => ⟨hlost.1, hlost.2.later⟩)
  rintro i t1 ⟨⟨hf, hc, hj⟩, hreg⟩
  have hargs : t1.args.push c = t.args.push c := congrArg (·.push c) hreg.stage.args
  have hlater := hreg.stage.later
  refine runs_of_ok rfl ⟨hf.addArg c, ⟨hlater.registered, hlater.entries, ?_⟩, hargs, hc, fun a ha => ?_⟩
  · simp only [hargs, Array.toList_push]
    exact List.prefix_append _ _
  · exact (hj a ha).imp id (.later List.prefix_rfl)

end TypedWire.TypeTable
