import TypedWire.Proofs.Message.Noted
import TypedWire.Proofs.Schema.Height

/-! Types that share a slot. Whatever a table was built from, and in whatever order, types with one slot
    unfold to the same tree; types that unfold to the same tree have one slot, if the comparison sees all
    of it; and a type that has a reference gets the same one again. -/

namespace TypedWire.TypeTable

open TypedWire.Action

variable {w w' : Scope} {t t' : TypeTable} {refs : List (TypeId × Int)} {c d r : TypeId} {n : TypeNode}
variable {i : Int} {j k depth : Nat}

/-- A table that types were built for and arguments added to, each successfully and each as the factories
    make them, with the references that were answered. In between more types may come into the scope, and
    more names. -/
inductive Built : Scope → TypeTable → List (TypeId × Int) → Prop where
  | start (w : Scope) : Built w {} []
  | grown {w w' : Scope} {t : TypeTable} {refs : List (TypeId × Int)} :
      Built w t refs → w.Extends w' → Built w' t refs
  | type {w : Scope} {t t' : TypeTable} {refs : List (TypeId × Int)} {c : TypeId} {i : Int} :
      Built w t refs → w.Throughout TypeNode.Canonical c → register w.store w.env c t = .ok i t' →
      Built w t' (refs ++ [(c, i)])
  | argument {w : Scope} {t t' : TypeTable} {refs : List (TypeId × Int)} {c : TypeId} :
      Built w t refs → w.Throughout TypeNode.Canonical c → addArg w.store w.env c t = .ok () t' →
      Built w t' refs

/-- The reference of a type: its slot, or the number of the type without parts that it stands for. -/
def HasRef (w : Scope) (t : TypeTable) (c : TypeId) (i : Int) : Prop :=
  (∃ j : Nat, t.slot? c = some j ∧ i = j) ∨ ∃ r p, w.StandsFor c r (.primitive p) ∧ i = p.opcode

/-! ### The same reference again -/

theorem Faithful.slot?_iff (h : t.Faithful w) : t.slot? c = some j ↔ (c, j) ∈ t.slots := by
  refine ⟨slot?_eq_some, fun hc => ?_⟩
  obtain ⟨k, hk⟩ := slot?_of_mem hc
  have hnumber := (h.noted c k (slot?_eq_some hk)).symm.trans (h.noted c j hc)
  obtain rfl : k = j := by simpa using hnumber
  exact hk

/-- A type has a reference where there is a number for it. -/
theorem Faithful.hasRef_iff (h : t.Faithful w) :
    t.HasRef w c i ↔ t.Numbered w c ∧ number? w t.registered.toList c = .ok (some i) := by
  constructor
  · rintro (⟨j, hslot, rfl⟩ | ⟨r, p, hs, rfl⟩)
    · have hc := slot?_eq_some hslot
      exact ⟨.inr ⟨j, hc⟩, h.noted c j hc⟩
    · exact ⟨.inl ⟨r, p, hs⟩, number?_primitive hs⟩
  · rintro ⟨⟨r, p, hs⟩ | ⟨j, hc⟩, hnumber⟩
    · have hi := (number?_primitive hs).symm.trans hnumber
      exact .inr ⟨r, p, hs, by simpa [eq_comm] using hi⟩
    · have hi := (h.noted c j hc).symm.trans hnumber
      exact .inl ⟨j, h.slot?_iff.mpr hc, by simpa [eq_comm] using hi⟩

/-- A type that has a reference gets it again, and nothing is changed. -/
theorem Faithful.register_again (h : t.Faithful w) (hc : t.HasRef w c i) :
    register w.store w.env c t = .ok i t := by
  rcases hc with ⟨j, hslot, rfl⟩ | ⟨r, p, hs, rfl⟩
  · exact registerWithin_noted hslot
  · have hnone : ∀ {a}, w.StandsFor a r (.primitive p) → t.slot? a = none := fun ha =>
      Option.eq_none_iff_forall_ne_some.mpr fun j hj => h.not_primitive (slot?_eq_some hj) ha
    exact registerWithin_primitive (hnone hs) hs (hnone hs.root) rfl

/-- What registering answers is the reference that the type has then. -/
theorem hasRef_registerWithin (h : t.Faithful w) : ∀ depth,
    Runs (registerWithin w.store w.env depth c) t (fun i t' => t'.HasRef w c i) fun _ _ => True
  | 0 => runs_fail trivial
  | depth + 1 => by
    have hmeets := meets_registerWithin h depth c
    generalize hnumber : number? w t.registered.toList c = number at hmeets
    cases hmeets with
    | found slots hrun _ hfaithful hc =>
      exact runs_of_ok hrun (hfaithful.hasRef_iff.mpr ⟨hc, hnumber⟩)
    | fault hrun => exact runs_of_error hrun trivial
    | @new r n hs hn hnew hrun =>
      suffices hrest : Runs (registerNew w depth c r n) t (fun i t' => t'.HasRef w c i)
          fun _ _ => True by rwa [Runs, ← hrun] at hrest
      refine runs_bind (runs_of_ok rfl (runs_bind (runs_of_ok rfl (runs_bind ?_))))
      refine (further_parts (further_registerWithin depth) (parts n) _
        (h.entered hs hn hnew).faithful).mono ?_ fun _ _ _ => trivial
      rintro - t2 ⟨hf, -⟩
      refine runs_bind (runs_of_ok rfl (runs_bind (runs_answer (fun entry _ => ?_) fun _ _ => trivial)))
      have hc : (c, t.entries.size) ∈ t2.slots := hf.slots.subset (by simp [TypeTable.entered])
      exact runs_bind (runs_of_ok rfl (runs_pure
        (.inl ⟨_, (hf.faithful.fill entry).slot?_iff.mpr hc, rfl⟩)))

/-! ### What building keeps -/

/-- A table as it is between two calls: complete, faithful to the registered types, and with a reference
    for each type that was built or added. -/
structure Ready (w : Scope) (t : TypeTable) (refs : List (TypeId × Int)) : Prop where
  complete : t.Complete w
  faithful : t.Faithful w
  refs : ∀ c i, (c, i) ∈ refs → t.HasRef w c i
  args : ∀ c ∈ t.args.toList, ∃ i, t.HasRef w c i

theorem HasRef.extends (hw : w.Extends w') (h : t.HasRef w c i) : t.HasRef w' c i :=
  h.imp id fun ⟨r, p, hs, hi⟩ => ⟨r, p, hs.extends hw, hi⟩

theorem HasRef.later (hf : Further w t t') (h : t.HasRef w c i) : t'.HasRef w c i := by
  rcases h with ⟨j, hslot, hi⟩ | h
  · have hc := hf.slots.subset (slot?_eq_some hslot)
    exact .inl ⟨j, hf.faithful.slot?_iff.mpr hc, hi⟩
  · exact .inr h

theorem Ready.extends (hw : w.Extends w') (h : Ready w t refs) : Ready w' t refs where
  complete := h.complete.extends hw
  faithful := h.faithful.extends hw
  refs c i hc := (h.refs c i hc).extends hw
  args c hc := (h.args c hc).imp fun _ hi => hi.extends hw

theorem runs_register (h : Ready w t refs) (hc : w.Throughout TypeNode.Canonical c) :
    Runs (register w.store w.env c) t
      (fun i t' => Ready w t' (refs ++ [(c, i)])) fun _ _ => True := by
  have hruns := ((hasRef_registerWithin (c := c) h.faithful (w.store.types.size + 1)).and
    (further_registerWithin _ t c h.faithful)).and (runs_registerWithin _ t c h.complete.toLinked)
  refine hruns.mono ?_ fun _ _ _ => trivial
  rintro i t' ⟨⟨hi, hf, -, -⟩, hreg⟩
  refine ⟨h.complete.filled hreg.stage.linked hreg.stage.later (hreg.filled hc), hf.faithful,
    fun d k hd => ?_, fun d hd => ?_⟩
  · rcases List.mem_append.mp hd with hd | hd
    · exact (h.refs d k hd).later hf
    · obtain ⟨rfl, rfl⟩ := Prod.mk.inj (List.mem_singleton.mp hd)
      exact hi
  · rw [hreg.stage.args] at hd
    exact (h.args d hd).imp fun _ hk => hk.later hf

theorem Ready.argument (h : Ready w t (refs ++ [(c, i)])) :
    Ready w { t with args := t.args.push c } refs where
  complete := ⟨⟨h.complete.size, h.complete.root, h.complete.slot⟩, h.complete.written⟩
  faithful := ⟨h.faithful.size, h.faithful.root, h.faithful.distinct, h.faithful.noted⟩
  refs d k hd := h.refs d k (List.mem_append_left _ hd)
  args d hd := by
    rw [Array.toList_push, List.mem_append, List.mem_singleton] at hd
    rcases hd with hd | rfl
    · exact h.args d hd
    · exact ⟨i, h.refs d i (by simp)⟩

theorem Built.ready (h : Built w t refs) : Ready w t refs := by
  induction h with
  | start w => exact ⟨complete_empty w, faithful_empty w, by simp, by simp⟩
  | grown _ hw ih => exact ih.extends hw
  | type _ hc hrun ih => exact (runs_register ih hc).ok hrun
  | @argument w t t' refs c _ hc hadd ih =>
    simp only [addArg, bind_eq_ok, modify_eq_ok] at hadd
    obtain ⟨i, t1, hrun, rfl⟩ := hadd
    exact ((runs_register ih hc).ok hrun).argument

/-! ### Slots and trees -/

/-- Types that may be taken for each other unfold to the same tree, if the table has them. -/
theorem Complete.sameTree (h : t.Complete w) (hc : t.Refers w c i) (hcd : w.Alias c d) :
    w.SameTree c w d := by
  refine ⟨fun x y => w.Alias x y ∧ ∃ code, t.Refers w y code, ?_, hcd, i, hc.alias hcd.symm⟩
  rintro x y ⟨hxy, code, hy⟩
  obtain ⟨q, m, hm⟩ := h.toLinked.standsFor hy
  obtain ⟨r, n, hn, halike⟩ := hxy.standsFor hm
  exact ⟨r, n, q, m, hn, hm, halike.within.mono fun a b ⟨hab, _, hb⟩ =>
    ⟨hab, h.refers_part hy hm hb⟩⟩

theorem Ready.sameTree (h : Ready w t refs) (hc : t.slot? c = some j) (hd : t.slot? d = some j) :
    w.SameTree c w d := by
  obtain ⟨a, ha, hca⟩ := h.complete.slot c j (slot?_eq_some hc)
  obtain ⟨b, hb, hdb⟩ := h.complete.slot d j (slot?_eq_some hd)
  obtain rfl := Option.some.inj (ha.symm.trans hb)
  exact h.complete.sameTree (h.complete.toLinked.refers (.refl c) hc) (.trans hca hdb.symm)

/-- A search answers no for each type before the one that it finds. -/
theorem findEqual_before : ∀ {place : Nat} {others : List TypeId} {found k : Nat} {a : TypeId},
    findEqual w.store w.env c place others = .ok (some found) → others[k]? = some a →
      place + k < found → w.env.sameWithin w.store sharedLevels a c = .ok false
  | _, [], _, _, _, h, _, _ => by simp [findEqual] at h
  | place, other :: rest, found, k, a, h, ha, hlt => by
    rw [findEqual_cons] at h
    rcases h with ⟨-, hfound⟩ | ⟨hother, h⟩
    · obtain rfl : found = place := by simpa using hfound
      omega
    · cases k with
      | zero =>
        obtain rfl : other = a := by simpa using ha
        exact hother
      | succ k => exact findEqual_before h (by simpa using ha) (by omega)

/-- Of two types that unfold to the same tree, of which the comparison sees all, the first registered
    type that equals the one is not after the first that equals the other. -/
theorem Ready.slot_le (h : Ready w t refs) (hc : t.slot? c = some j) (hd : t.slot? d = some k)
    (hheight : w.HeightAtMost 32 d) (hsame : w.SameTree c w d) : k ≤ j := by
  obtain ⟨a, ha, hca⟩ := h.complete.slot c j (slot?_eq_some hc)
  obtain ⟨r, n, hs, -, hfound⟩ := h.faithful.place (slot?_eq_some hd)
  have hac : w.SameTree a w c :=
    (h.complete.sameTree (h.complete.toLinked.refers (.refl c) hc) hca).symm
  obtain ⟨m, hm, -⟩ := h.faithful.linked.root j a ha
  have hseen := Scope.sameWithin_of_sameTree 32 (hheight.root hs) ((hac.trans hsame).root hm hs)
  by_contra hlt
  have hnot := findEqual_before hfound (k := j) (by simpa using ha) (by omega)
  exact absurd (hseen.symm.trans hnot) (by simp)

/-- Types with the same slot unfold to the same tree; types that unfold to the same tree, of no more than
    32 edges from its root to a leaf, have the same slot; and all that was built or added has a reference,
    by which it is known again without a change of the table. -/
theorem built_shares (h : Built w t refs) :
    (∀ c d j, t.slot? c = some j → t.slot? d = some j → w.SameTree c w d) ∧
    (∀ c d j k, t.slot? c = some j → t.slot? d = some k → w.HeightAtMost 32 c → w.HeightAtMost 32 d →
      w.SameTree c w d → j = k) ∧
    (∀ c i, (c, i) ∈ refs → t.HasRef w c i) ∧ (∀ c ∈ t.args.toList, ∃ i, t.HasRef w c i) ∧
    ∀ c i, t.HasRef w c i → register w.store w.env c t = .ok i t :=
  have hready := h.ready
  ⟨fun _ _ _ hc hd => hready.sameTree hc hd,
    fun _ _ _ _ hc hd hheight hheight' hsame => Nat.le_antisymm
      (hready.slot_le hd hc hheight hsame.symm) (hready.slot_le hc hd hheight' hsame),
    hready.refs, hready.args, fun _ _ hc => hready.faithful.register_again hc⟩

/-- Bytes, bytes again, now under a name and with a node of its own for a byte, and an option of that. -/
def twins : Scope where
  store := {
    types := #[.primitive (.fixed .nat8), .vec ⟨0⟩, .primitive (.fixed .nat8), .vec ⟨2⟩, .var "bytes",
      .opt ⟨4⟩] }
  env := ⟨[("bytes", ⟨3⟩)]⟩

theorem twins_sameTree : twins.SameTree ⟨1⟩ twins ⟨4⟩ := by
  refine ⟨fun a b => (a = ⟨1⟩ ∧ b = ⟨4⟩) ∨ (a = ⟨0⟩ ∧ b = ⟨2⟩), ?_, .inl ⟨rfl, rfl⟩⟩
  rintro a b (⟨rfl, rfl⟩ | ⟨rfl, rfl⟩)
  · exact ⟨⟨1⟩, .vec ⟨0⟩, ⟨3⟩, .vec ⟨2⟩, ⟨rfl, rfl⟩, ⟨rfl, rfl⟩, .vec (.inr ⟨rfl, rfl⟩)⟩
  · exact ⟨⟨0⟩, .primitive (.fixed .nat8), ⟨2⟩, .primitive (.fixed .nat8), ⟨rfl, rfl⟩, ⟨rfl, rfl⟩,
      .primitive _⟩

/-- The option comes between the two, and yet they share a slot, and are known again by it. -/
theorem twins_share : ∃ t, Built twins t [(⟨1⟩, 0), (⟨5⟩, 1), (⟨4⟩, 0)] ∧
    (∀ j k, t.slot? ⟨1⟩ = some j → t.slot? ⟨4⟩ = some k → j = k) ∧
    (t.slot? ⟨3⟩ = some 0 ∧ t.slot? ⟨4⟩ = some 0 ∧ twins.SameTree ⟨3⟩ twins ⟨4⟩) ∧
    register twins.store twins.env ⟨1⟩ t = .ok 0 t := by
  have hcanon : ∀ c, twins.Throughout TypeNode.Canonical c := by
    refine .of_store fun n hn => ?_
    simp only [twins, List.mem_toArray, List.mem_cons, List.not_mem_nil, or_false] at hn
    rcases hn with rfl | rfl | rfl | rfl | rfl | rfl
    all_goals trivial
  have hbyte : ∀ c, twins.StandsFor c c (.primitive (.fixed .nat8)) → twins.HeightAtMost 31 c :=
    fun c hc => ⟨c, _, hc, by simp [parts]⟩
  have hlow : twins.HeightAtMost 32 ⟨1⟩ :=
    ⟨⟨1⟩, .vec ⟨0⟩, ⟨rfl, rfl⟩, List.forall_mem_singleton.mpr (hbyte _ ⟨rfl, rfl⟩)⟩
  have hlow' : twins.HeightAtMost 32 ⟨4⟩ :=
    ⟨⟨3⟩, .vec ⟨2⟩, ⟨rfl, rfl⟩, List.forall_mem_singleton.mpr (hbyte _ ⟨rfl, rfl⟩)⟩
  obtain ⟨t, hbuilt, hone, hother⟩ : ∃ t,
      Built twins t ([] ++ [(⟨1⟩, 0)] ++ [(⟨5⟩, 1)] ++ [(⟨4⟩, 0)]) ∧
      t.slot? ⟨3⟩ = some 0 ∧ t.slot? ⟨4⟩ = some 0 :=
    ⟨_, .type (.type (.type (.start twins) (hcanon _) rfl) (hcanon _) rfl) (hcanon _) rfl, rfl, rfl⟩
  obtain ⟨hsound, hcomplete, hrefs, -, hagain⟩ := built_shares hbuilt
  exact ⟨t, hbuilt, fun j k hj hk => hcomplete _ _ j k hj hk hlow hlow' twins_sameTree,
    ⟨hone, hother, hsound _ _ 0 hone hother⟩, hagain _ _ (hrefs _ _ (by simp))⟩

end TypedWire.TypeTable
