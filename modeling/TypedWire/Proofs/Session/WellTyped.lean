import TypedWire.Proofs.Session.Run

/-! An argument that has been read is well typed and in canonical form, at every place inside its
    value. -/

namespace TypedWire

namespace Store

/-- The places inside the value `v` of type `t`: the value that lies there, and the type that it is
    read by. -/
inductive Inside (s : Store) (w : Scope) (v : ValueId) (t : TypeId) : ValueId → TypeId → Prop where
  | whole : Inside s w v t v t
  | content {u inner : ValueId} {e r innerType : TypeId} : Inside s w v t u e →
      w.StandsFor e r (.opt innerType) → s.valueAt u = .ok (.opt (some inner)) →
      Inside s w v t inner innerType
  | item {u item : ValueId} {e r element : TypeId} {items : List ValueId} : Inside s w v t u e →
      w.StandsFor e r (.vec element) → s.valueAt u = .ok (.vec items) → item ∈ items →
      Inside s w v t item element
  | field {u : ValueId} {e r : TypeId} {fields : List Field} {xs : List FieldValue} {i : Nat}
      {f : Field} {x : FieldValue} : Inside s w v t u e → w.StandsFor e r (.record fields) →
      s.valueAt u = .ok (.record xs) → fields[i]? = some f → xs[i]? = some x →
      Inside s w v t x.value f.type
  | active {u : ValueId} {e r : TypeId} {fields : List Field} {i : Nat} {f : Field} {x : FieldValue} :
      Inside s w v t u e → w.StandsFor e r (.variant fields) → s.valueAt u = .ok (.variant i x) →
      fields[i]? = some f → Inside s w v t x.value f.type

/-- One node of a value is as the node of its type demands, in the form that decoding gives it. -/
structure Proper (s : Store) (w : Scope) (x : Value) (n : TypeNode) : Prop where
  fills : s.Fills w .decoded (fun _ _ => True) x n
  /-- No value is `empty`. -/
  inhabited : n ≠ .primitive .empty
  /-- The fields of a record are those of the type, in order. -/
  labels : ∀ fields, n = .record fields →
    ∃ xs, x = .record xs ∧ xs.map FieldValue.label = fields.map Field.label
  /-- The active field of a variant is the one at its place in the type. -/
  active : ∀ fields, n = .variant fields →
    ∃ i f u, x = .variant i ⟨f.label, u⟩ ∧ i < fields.length ∧ fields[i]? = some f
  /-- A `vec nat8` is a byte string, and no other `vec` is. -/
  blob_iff : ∀ element, n = .vec element →
    ((∃ p, x = .blob p) ↔ ∃ r, w.StandsFor element r (.primitive (.fixed .nat8)))

variable {s : Store} {w : Scope} {form : Form} {sub : ValueId → TypeId → Prop} {x : Value}
variable {n : TypeNode} {v u : ValueId} {t e : TypeId} {depth : Nat}

theorem Fills.blob_iff (h : s.Fills w .decoded sub x (.vec e)) :
    (∃ p, x = .blob p) ↔ ∃ r, w.StandsFor e r (.primitive (.fixed .nat8)) := by
  cases h with
  | blob hb hbyte => exact ⟨fun _ => ⟨_, hbyte⟩, fun _ => ⟨_, rfl⟩⟩
  | vec hother hitems =>
    obtain ⟨r, n, hn, hne⟩ := hother rfl
    constructor
    · rintro ⟨p, hp⟩
      exact absurd hp (by simp)
    · rintro ⟨r', hbyte⟩
      exact absurd (hn.node_eq hbyte) hne

theorem Fills.proper (h : s.Fills w .decoded sub x n) : s.Proper w x n where
  fills := h.mono (.refl s) (fun _ _ _ => id) (.refl _) fun _ _ _ => trivial
  inhabited := by
    rintro rfl
    cases h
  labels := by
    rintro fields rfl
    cases h with
    | @record xs _ hxs =>
      refine ⟨xs, rfl, ?_⟩
      induction hxs with
      | nil => rfl
      | cons hx _ ih => rw [List.map_cons, List.map_cons, ih, show _ = _ from hx.1]
  active := by
    rintro fields rfl
    cases h with
    | @variant _ i f x hf hlabel _ =>
      obtain ⟨label, u⟩ := x
      obtain rfl : label = f.label := hlabel
      exact ⟨i, f, u, rfl, (List.getElem?_eq_some_iff.mp hf).1, hf⟩
  blob_iff := by
    rintro element rfl
    exact h.blob_iff

/-- What lies inside a value of a type is of the type that it is read by. -/
theorem OfType.inside (h : s.OfType w form depth v t) (hu : s.Inside w v t u e) :
    ∃ k, s.OfType w form (k + 1) u e := by
  -- Each place is reached from one whose node is known, and whose parts are typed with it.
  have hpart : ∀ {k : Nat} {u : ValueId} {e : TypeId}, s.OfType w form k u e →
      ∃ k, s.OfType w form (k + 1) u e := fun {k} _ _ hk => ⟨k, hk.succ⟩
  induction hu with
  | whole => exact hpart h
  | content _ he hx ih =>
    obtain ⟨k, hk⟩ := ih
    obtain ⟨x, hx', hfill⟩ := hk.ofNode he
    cases hx.symm.trans hx'
    cases hfill with
    | some hin => exact hpart hin
  | item _ he hx hitem ih =>
    obtain ⟨k, hk⟩ := ih
    obtain ⟨x, hx', hfill⟩ := hk.ofNode he
    cases hx.symm.trans hx'
    cases hfill with
    | vec _ hitems => exact hpart (hitems _ hitem)
  | field _ he hx hf hxi ih =>
    obtain ⟨k, hk⟩ := ih
    obtain ⟨x, hx', hfill⟩ := hk.ofNode he
    cases hx.symm.trans hx'
    cases hfill with
    | record hxs =>
      obtain ⟨hi, rfl⟩ := List.getElem?_eq_some_iff.mp hf
      obtain ⟨hi', rfl⟩ := List.getElem?_eq_some_iff.mp hxi
      exact hpart ((List.forall₂_iff_get.mp hxs).2 _ hi hi').2
  | active _ he hx hf ih =>
    obtain ⟨k, hk⟩ := ih
    obtain ⟨x, hx', hfill⟩ := hk.ofNode he
    cases hx.symm.trans hx'
    cases hfill with
    | variant hf' _ hin =>
      cases hf.symm.trans hf'
      exact hpart hin

end Store

namespace Session

open TypedWire.Action

variable {s s' : State} {t : TypeId} {v : ValueId}

/-- An argument that has been read is of the type that the message gives it, and wherever one looks
    inside its value, the node found is a proper one of the type that it is read by. This is so in
    every state of a session, whatever the message, the configuration and the calls before. -/
theorem readNext_wellTyped (h : readNext s = .ok (t, v) s') :
    s'.session.header = s.session.header ∧ s.session.header.args[s.session.nextArg]? = some t ∧
      s'.store.WellTyped s'.session.header.env .decoded v t ∧
      ∀ u e, s'.store.Inside ⟨s'.store, s'.session.header.env⟩ v t u e →
        ∃ r n x, Scope.StandsFor ⟨s'.store, s'.session.header.env⟩ e r n ∧
          s'.store.valueAt u = .ok x ∧ s'.store.Proper ⟨s'.store, s'.session.header.env⟩ x n := by
  obtain ⟨-, -, -, -, hv⟩ := leads_readNext.ok h
  obtain ⟨harg, -, hheader⟩ := readNext_eq_ok h
  refine ⟨hheader, harg, hv, fun u e hu => ?_⟩
  obtain ⟨depth, hdepth⟩ := hv
  obtain ⟨k, r, n, hn, x, hx, hfill⟩ := hdepth.inside hu
  exact ⟨r, n, x, hn, hx, hfill.proper⟩

theorem number_read_wellTyped : ∃ session store, start numberMessage {} {} = .ok session store ∧
    ∃ t v s, readNext ⟨session, store⟩ = .ok (t, v) s ∧ s.session.header = session.header ∧
      session.header.args[session.nextArg]? = some t ∧
      s.store.WellTyped s.session.header.env .decoded v t ∧
      ∀ u e, s.store.Inside ⟨s.store, s.session.header.env⟩ v t u e →
        ∃ r n x, Scope.StandsFor ⟨s.store, s.session.header.env⟩ e r n ∧
          s.store.valueAt u = .ok x ∧ s.store.Proper ⟨s.store, s.session.header.env⟩ x n := by
  have hread : (start numberMessage {}).passes {} (fun session store =>
      readNext.passes ⟨session, store⟩ fun _ _ => true) = true := by decide +kernel
  obtain ⟨session, store, hstart, hread⟩ := passes_iff.mp hread
  obtain ⟨⟨t, v⟩, s, hread, -⟩ := passes_iff.mp hread
  exact ⟨session, store, hstart, t, v, s, hread, readNext_wellTyped hread⟩

end Session

end TypedWire
