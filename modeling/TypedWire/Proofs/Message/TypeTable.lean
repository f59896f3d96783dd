import TypedWire.Proofs.Message.Entry
import TypedWire.Proofs.Schema.Canonical

/-! The type table of a message that is being written. At any time, a slot that a type is noted to take
    belongs to a type that may be taken for it; between two arguments, each slot holds what is written
    for its type, with a number for each part that refers to the part. A failed argument is taken back
    without a trace. -/

namespace TypedWire.TypeTable

open TypedWire.Action

/-- The number stands for the type: it is the number of the type without parts that `c` stands for, or
    the slot of a type that may be taken for `c`. -/
def Refers (w : Scope) (t : TypeTable) (c : TypeId) (code : Int) : Prop :=
  (∃ r p, w.StandsFor c r (.primitive p) ∧ code = p.opcode) ∨
  ∃ (j : Nat) (a : TypeId), t.registered[j]? = some a ∧ w.Alias c a ∧ code = j

/-- Each slot belongs to a type with parts, and types that are noted to take it may be taken for that
    type. -/
structure Linked (w : Scope) (t : TypeTable) : Prop where
  size : t.entries.size = t.registered.size
  root : ∀ (k : Nat) (a : TypeId), t.registered[k]? = some a →
    ∃ n, w.StandsFor a a n ∧ n.kind.isPrimitive = false
  slot : ∀ (c : TypeId) (j : Nat), (c, j) ∈ t.slots → ∃ a, t.registered[j]? = some a ∧ w.Alias c a

/-- The slot holds what is written for the type that it belongs to. -/
def Written (w : Scope) (t : TypeTable) (k : Nat) : Prop :=
  ∃ a n code, t.registered[k]? = some a ∧ w.StandsFor a a n ∧ n.Canonical ∧
    (∀ c ∈ parts n, t.Refers w c (code c)) ∧ t.entries[k]? = some (n.entryBytes code)

/-- The table between two arguments. -/
structure Complete (w : Scope) (t : TypeTable) : Prop extends t.Linked w where
  written : ∀ k, k < t.entries.size → t.Written w k

/-- What was in `t` is in `t'`. -/
structure Later (t t' : TypeTable) : Prop where
  registered : t.registered.toList <+: t'.registered.toList
  entries : t.entries.toList <+: t'.entries.toList
  args : t.args.toList <+: t'.args.toList

variable {w w' : Scope} {t t' t'' : TypeTable} {c d a : TypeId} {k j : Nat} {code : Int}

/-! ### Growing -/

theorem getElem?_of_front {α : Type} {xs ys : Array α} {i : Nat} {x : α}
    (h : xs.toList <+: ys.toList) (hx : xs[i]? = some x) : ys[i]? = some x := by
  rw [← Array.getElem?_toList] at hx ⊢
  obtain ⟨zs, hzs⟩ := h
  rw [← hzs, List.getElem?_append_left (List.getElem?_eq_some_iff.mp hx).1, hx]

theorem Later.refl (t : TypeTable) : t.Later t :=
  ⟨List.prefix_rfl, List.prefix_rfl, List.prefix_rfl⟩

theorem Later.trans (h : t.Later t') (h' : t'.Later t'') : t.Later t'' :=
  ⟨h.registered.trans h'.registered, h.entries.trans h'.entries, h.args.trans h'.args⟩

theorem Refers.later (hr : t.registered.toList <+: t'.registered.toList) (h : t.Refers w c code) :
    t'.Refers w c code := by
  rcases h with h | ⟨j, a, ha, hc, hcode⟩
  · exact .inl h
  · exact .inr ⟨j, a, getElem?_of_front hr ha, hc, hcode⟩

theorem Refers.extends (hw : w.Extends w') (h : t.Refers w c code) : t.Refers w' c code := by
  rcases h with ⟨r, p, hs, hcode⟩ | ⟨j, a, ha, hc, hcode⟩
  · exact .inl ⟨r, p, hs.extends hw, hcode⟩
  · exact .inr ⟨j, a, ha, hc.extends hw, hcode⟩

/-- A number that stands for a type stands for all that may be taken for it. -/
theorem Refers.alias (h : t.Refers w c code) (hd : w.Alias d c) : t.Refers w d code := by
  rcases h with ⟨r, p, hs, hcode⟩ | ⟨j, a, ha, hc, hcode⟩
  · obtain ⟨r', n', hs', hn'⟩ := hd.standsFor hs
    cases hn' with
    | primitive => exact .inl ⟨r', p, hs', hcode⟩
  · exact .inr ⟨j, a, ha, .trans hd hc, hcode⟩

theorem Linked.extends (hw : w.Extends w') (h : t.Linked w) : t.Linked w' where
  size := h.size
  root k a ha := by
    obtain ⟨n, hs, hn⟩ := h.root k a ha
    exact ⟨n, hs.extends hw, hn⟩
  slot c j hcj := by
    obtain ⟨a, ha, hc⟩ := h.slot c j hcj
    exact ⟨a, ha, hc.extends hw⟩

theorem Written.extends (hw : w.Extends w') (h : t.Written w k) : t.Written w' k := by
  obtain ⟨a, n, code, ha, hs, hn, hparts, hentry⟩ := h
  exact ⟨a, n, code, ha, hs.extends hw, hn, fun c hc => (hparts c hc).extends hw, hentry⟩

/-- What a slot holds stays written as long as the slot is left alone. -/
theorem Written.later (hr : t.registered.toList <+: t'.registered.toList)
    (hentry : ∀ bytes, t.entries[k]? = some bytes → t'.entries[k]? = some bytes)
    (h : t.Written w k) : t'.Written w k := by
  obtain ⟨a, n, code, ha, hs, hn, hparts, hk⟩ := h
  exact ⟨a, n, code, getElem?_of_front hr ha, hs, hn, fun c hc => (hparts c hc).later hr, hentry _ hk⟩

theorem Complete.extends (hw : w.Extends w') (h : t.Complete w) : t.Complete w' where
  toLinked := h.toLinked.extends hw
  written k hk := (h.written k hk).extends hw

theorem complete_empty (w : Scope) : ({} : TypeTable).Complete w where
  size := rfl
  root := by simp
  slot := by simp
  written k hk := absurd hk (Nat.not_lt_zero k)

/-! ### Taking back -/

theorem take_of_front {α : Type} {xs ys : Array α} (h : xs.toList <+: ys.toList) :
    ys.take xs.size = xs := by
  apply Array.toList_inj.mp
  simpa using (List.prefix_iff_eq_take.mp h).symm

/-- Going back to a mark takes away all that came after it. -/
theorem Later.restore (h : t.Later t') (hsize : t.entries.size = t.registered.size) :
    t'.restore t.mark = { t with slots := t'.slots.filter (·.2 < t.entries.size) } := by
  have hregistered : t'.registered.take t.entries.size = t.registered := by
    rw [hsize, take_of_front h.registered]
  simp only [TypeTable.restore, mark, take_of_front h.entries, take_of_front h.args, hregistered]
  rfl

theorem Complete.restore (h : t.Complete w) (hlater : t.Later t') (h' : t'.Linked w) :
    (t'.restore t.mark).Complete w := by
  rw [hlater.restore h.size]
  refine ⟨⟨h.size, h.root, fun c j hcj => ?_⟩, h.written⟩
  rw [List.mem_filter, decide_eq_true_eq] at hcj
  obtain ⟨a, ha, hc⟩ := h'.slot c j hcj.1
  refine ⟨a, ?_, hc⟩
  have hj : j < t.registered.size := h.size ▸ hcj.2
  have hold : t.registered[j]? = some t.registered[j] := Array.getElem?_eq_getElem hj
  rw [getElem?_of_front hlater.registered hold] at ha
  exact hold.trans ha

/-! ### References -/

theorem slot?_eq_some (h : t.slot? c = some j) : (c, j) ∈ t.slots := by
  unfold slot? at h
  rw [List.lookup_eq_some_iff] at h
  obtain ⟨l1, l2, hl, -⟩ := h
  simp [hl]

theorem Linked.refers (h : t.Linked w) (hd : w.Alias c d) (hslot : t.slot? d = some j) :
    t.Refers w c j := by
  obtain ⟨a, ha, hda⟩ := h.slot d j (slot?_eq_some hslot)
  exact .inr ⟨j, a, ha, .trans hd hda, rfl⟩

/-- What is written for a type is a number that stands for it. -/
theorem Linked.encodeRef (h : t.Linked w) {bytes : List UInt8}
    (hb : t.encodeRef w.store w.env c = .ok bytes) :
    ∃ code, bytes = Leb128.encodeSigned code ∧ t.Refers w c code := by
  simp only [TypeTable.encodeRef, Except.bind_eq_ok] at hb
  obtain ⟨n, hn, hb⟩ := hb
  split at hb
  · next p =>
    rw [Except.pure_eq_ok] at hb
    exact ⟨p.opcode, hb.symm, .inl ⟨c, p, .of_node hn (by simp), rfl⟩⟩
  · split at hb
    · next slot hslot =>
      rw [Except.pure_eq_ok] at hb
      exact ⟨slot, hb.symm, h.refers (.refl c) hslot⟩
    · split at hb
      · simp only [Except.bind_eq_ok] at hb
        obtain ⟨r, hr, n', hn', hb⟩ := hb
        have hs : w.StandsFor c r n' := ⟨hr, hn'⟩
        split at hb
        · next p =>
          rw [Except.pure_eq_ok] at hb
          exact ⟨p.opcode, hb.symm, .inl ⟨r, p, hs, rfl⟩⟩
        · split at hb
          · next slot hslot =>
            rw [Except.pure_eq_ok] at hb
            exact ⟨slot, hb.symm, h.refers (.root hs) hslot⟩
          · simp at hb
      · simp at hb

/-- One number for each type, which is what is written for it if anything is. -/
theorem Linked.codes (h : t.Linked w) : ∃ code : TypeId → Int, ∀ c bytes,
    t.encodeRef w.store w.env c = .ok bytes → bytes = refBytes code c ∧ t.Refers w c (code c) := by
  have hcode : ∀ c, ∃ code, ∀ bytes, t.encodeRef w.store w.env c = .ok bytes →
      bytes = Leb128.encodeSigned code ∧ t.Refers w c code := by
    intro c
    cases hc : t.encodeRef w.store w.env c with
    | ok bytes =>
      obtain ⟨code, hbytes, hrefers⟩ := h.encodeRef hc
      exact ⟨code, fun bytes' heq => (Except.ok.inj heq) ▸ ⟨hbytes, hrefers⟩⟩
    | error e => exact ⟨0, fun bytes heq => absurd heq (by simp)⟩
  choose code hcode using hcode
  exact ⟨code, hcode⟩

/-! ### What a type reaches -/

theorem Linked.standsFor (h : t.Linked w) (hc : t.Refers w c code) : ∃ r n, w.StandsFor c r n := by
  rcases hc with ⟨r, p, hs, -⟩ | ⟨j, a, ha, halias, -⟩
  · exact ⟨r, _, hs⟩
  · obtain ⟨n, hs, -⟩ := h.root j a ha
    obtain ⟨r, n', hs', -⟩ := halias.standsFor hs
    exact ⟨r, n', hs'⟩

theorem Complete.refers_part (h : t.Complete w) {r : TypeId} {n : TypeNode} (hc : t.Refers w c code)
    (hs : w.StandsFor c r n) (hd : d ∈ parts n) : ∃ code, t.Refers w d code := by
  rcases hc with ⟨r', p, hs', -⟩ | ⟨j, a, ha, halias, -⟩
  · obtain rfl := hs.node_eq hs'
    simp [parts] at hd
  · have hj : j < t.entries.size := h.size ▸ (Array.getElem?_eq_some_iff.mp ha).1
    obtain ⟨a', m, codes, ha', hm, -, hparts, -⟩ := h.written j hj
    obtain rfl := Option.some.inj (ha.symm.trans ha')
    obtain ⟨r', n', hs', halike⟩ := halias.standsFor hm
    obtain rfl := hs.node_eq hs'
    obtain ⟨e, he, hde⟩ := halike.part hd
    exact ⟨codes e, (hparts e he).alias hde⟩

/-- All that is met inside a type of the table has a number too. -/
theorem Complete.refers_reached (h : t.Complete w) (hc : t.Refers w c code) (hr : w.Reaches c d) :
    ∃ code, t.Refers w d code := by
  induction hr with
  | refl => exact ⟨code, hc⟩
  | part _ hs hd ih =>
    obtain ⟨i, hi⟩ := ih
    exact h.refers_part hi hs hd

/-- Nothing new is met inside a type of the table when more is put into the store or bound. -/
theorem Complete.throughout {P : TypeNode → Prop} (h : t.Complete w) (hc : t.Refers w c code)
    (hw : w.Extends w') (hall : w.Throughout P c) : w'.Throughout P c := by
  have hreach : ∀ u, w'.Reaches c u → w.Reaches c u := by
    intro u hu
    induction hu with
    | refl => exact .refl
    | part _ hs hd ih =>
      obtain ⟨i, hi⟩ := h.refers_reached hc ih
      obtain ⟨r, n, hs'⟩ := h.standsFor hi
      obtain rfl := hs.node_eq (hs'.extends hw)
      exact .part ih hs' hd
  intro u r n hu hs
  obtain ⟨i, hi⟩ := h.refers_reached hc (hreach u hu)
  obtain ⟨r', n', hs'⟩ := h.standsFor hi
  obtain rfl := hs.node_eq (hs'.extends hw)
  exact hall u r' n (hreach u hu) hs'

/-! ### Steps -/

/-- What a step of building leaves, whether it gave up or not. -/
structure Stage (w : Scope) (t t' : TypeTable) : Prop where
  linked : t'.Linked w
  later : t.Later t'
  args : t'.args = t.args

/-- All slots that `t'` has beyond `t` are written. -/
def Filled (w : Scope) (t t' : TypeTable) : Prop :=
  ∀ k, t.entries.size ≤ k → k < t'.entries.size → t'.Written w k

theorem Linked.stage (h : t.Linked w) : Stage w t t := ⟨h, .refl t, rfl⟩

theorem Stage.trans (h : Stage w t t') (h' : Stage w t' t'') : Stage w t t'' :=
  ⟨h'.linked, h.later.trans h'.later, h'.args.trans h.args⟩

theorem Filled.refl (w : Scope) (t : TypeTable) : Filled w t t :=
  fun _ hle hlt => absurd hlt (Nat.not_lt.mpr hle)

theorem Filled.trans (h : Filled w t t') (h' : Filled w t' t'') (hlater : t'.Later t'') :
    Filled w t t'' := by
  intro k hle hlt
  by_cases hk : k < t'.entries.size
  · exact (h k hle hk).later hlater.registered fun _ => getElem?_of_front hlater.entries
  · exact h' k (Nat.not_lt.mp hk) hlt

theorem Complete.filled (h : t.Complete w) (h' : t'.Linked w) (hlater : t.Later t')
    (hf : Filled w t t') : t'.Complete w := by
  refine ⟨h', fun k hk => ?_⟩
  by_cases hlt : k < t.entries.size
  · exact (h.written k hlt).later hlater.registered fun _ => getElem?_of_front hlater.entries
  · exact hf k (Nat.not_lt.mp hlt) hk

theorem Linked.assign (h : t.Linked w) {types : List TypeId} (ha : t.registered[j]? = some a)
    (htypes : ∀ c ∈ types, w.Alias c a) :
    Linked w { t with slots := types.map (·, j) ++ t.slots } where
  size := h.size
  root := h.root
  slot c i hci := by
    rcases List.mem_append.mp hci with hci | hci
    · obtain ⟨d, hd, heq⟩ := List.mem_map.mp hci
      cases heq
      exact ⟨a, ha, htypes _ hd⟩
    · exact h.slot c i hci

theorem Linked.takeSlot (h : t.Linked w) {n : TypeNode} (hs : w.StandsFor a a n)
    (hn : n.kind.isPrimitive = false) :
    Linked w { t with entries := t.entries.push [], registered := t.registered.push a } where
  size := by simp [h.size]
  root k b hb := by
    rw [Array.getElem?_push] at hb
    split at hb
    · rw [Option.some.injEq] at hb
      exact hb ▸ ⟨n, hs, hn⟩
    · exact h.root k b hb
  slot c j hcj := by
    obtain ⟨b, hb, hc⟩ := h.slot c j hcj
    exact ⟨b, Store.getElem?_push_of_some hb, hc⟩

theorem Linked.fill (h : t.Linked w) (entry : List UInt8) :
    Linked w { t with entries := t.entries.setIfInBounds k entry } where
  size := by simpa using h.size
  root := h.root
  slot := h.slot

/-- Filling a slot leaves the others alone. -/
theorem Written.fill_ne (h : t.Written w k) (hne : j ≠ k) (entry : List UInt8) :
    Written w { t with entries := t.entries.setIfInBounds j entry } k := by
  obtain ⟨a, n, code, ha, hs, hn, hparts, hk⟩ := h
  refine ⟨a, n, code, ha, hs, hn, hparts, ?_⟩
  simpa [Array.getElem?_setIfInBounds_ne hne] using hk

/-- Filling a slot that is not in the front part leaves the front part alone. -/
theorem prefix_set {α : Type} {xs : List α} {ys : Array α} {i : Nat} (x : α) (h : xs <+: ys.toList)
    (hi : xs.length ≤ i) : xs <+: (ys.setIfInBounds i x).toList := by
  obtain ⟨zs, hzs⟩ := h
  rw [Array.toList_setIfInBounds, ← hzs, List.set_append_right _ _ hi]
  exact List.prefix_append _ _

theorem findEqual_eq_some : ∀ {place : Nat} {others : List TypeId} {slot : Nat},
    findEqual w.store w.env c place others = .ok (some slot) →
    ∃ i d, slot = place + i ∧ others[i]? = some d ∧ w.Alias d c
  | _, [], _, h => by simp [findEqual] at h
  | place, other :: rest, slot, h => by
    simp only [findEqual, Except.bind_eq_ok] at h
    obtain ⟨same, hsame, h⟩ := h
    split at h
    · next htrue =>
      subst htrue
      simp only [Except.pure_eq_ok, Option.some.injEq] at h
      exact ⟨0, other, by omega, rfl, Scope.sameWithin_alias _ _ _ hsame⟩
    · obtain ⟨i, d, rfl, hd, halias⟩ := findEqual_eq_some h
      exact ⟨i + 1, d, by omega, by simpa using hd, halias⟩

end TypedWire.TypeTable
