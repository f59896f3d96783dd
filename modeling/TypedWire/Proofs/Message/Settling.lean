import Mathlib.Data.List.Perm.Subperm
import TypedWire.Proofs.Message.Closed
import TypedWire.Proofs.Schema.Settled

/-! The types that a header brings are settled: the name of a slot is bound to the type of its entry,
    which is never a name, so every name leads to a node at once. The same names lead there in any
    other environment that binds them so, whatever else it binds. -/

namespace TypedWire

open TypedWire.Action

/-! ### Types that are no names -/

/-- The type lies in the store, and is no name. -/
def Store.Solid (s : Store) (t : TypeId) : Prop :=
  ∃ n, s.typeAt t = .ok n ∧ ∀ name, n ≠ .var name

theorem Store.Solid.extends {s s' : Store} {t : TypeId} (h : s.Solid t) (hs : s.Extends s') :
    s'.Solid t := by
  obtain ⟨n, hn, hvar⟩ := h
  exact ⟨n, hs.typeAt t n hn, hvar⟩

/-- Closed types are settled where no name is bound to a name. -/
theorem Scope.Closed.settled {w : Scope} {own : TypeId → Prop} (h : w.Closed own)
    (hbound : ∀ name t, w.env.find? name = some t → w.store.Solid t) : w.Settled own := by
  intro t ht
  obtain ⟨n, hn, hcanon, hparts, hname⟩ := h t ht
  by_cases hvar : ∃ name, n = .var name
  · obtain ⟨name, rfl⟩ := hvar
    obtain ⟨b, hb, hown⟩ := hname name rfl
    obtain ⟨m, hm, hvar⟩ := hbound name b hb
    obtain ⟨m', hm', hcanon', hparts', -⟩ := h b hown
    obtain rfl := Except.ok.inj (hm.symm.trans hm')
    exact ⟨b, m, Header.standsFor_var hn hb hm hvar, hown, hcanon', hparts'⟩
  · exact ⟨t, n, .of_node hn fun name hname => hvar ⟨name, hname⟩, ht, hcanon, hparts⟩

/-- An environment that binds all names of another, each of which is there once, has as many. -/
theorem Env.length_le {env env' : Env} (hnames : (env.bindings.map (·.1)).Nodup)
    (h : ∀ name t, env.find? name = some t → env'.find? name = some t) :
    env.bindings.length ≤ env'.bindings.length := by
  have hsub : env.bindings.map (·.1) ⊆ env'.bindings.map (·.1) := by
    intro name hname
    obtain ⟨t, ht⟩ : ∃ t, env.find? name = some t := by
      obtain ⟨⟨_, t⟩, hmem, rfl⟩ := List.mem_map.mp hname
      rw [← Option.ne_none_iff_exists']
      intro hnone
      have hne := List.lookup_eq_none_iff.mp hnone _ hmem
      simp at hne
    obtain ⟨l, l', hbindings, -⟩ := List.lookup_eq_some_iff.mp (h name t ht)
    simp [hbindings]
  simpa using (List.subperm_of_subset hnames hsub).length_le

namespace Header

variable {s s' : State} {store store' : Store} {slots : Array TypeId} {α : Type}

/-- The store has grown. -/
def Extended (s s' : State) : Prop := s.store.Extends s'.store

instance : IsPreorder State Extended where
  refl s := .refl s.store
  trans _ _ _ := Store.Extends.trans

/-! ### Steps -/

theorem extended_read (x : Action Reader α) (s : State) :
    Leads Extended (read x) s fun _ _ => True := by
  have hsame : ∀ reader, Extended s { s with reader } := fun _ => .refl s.store
  cases hx : x s.reader with
  | ok a reader =>
    have hrun : read x s = .ok a { s with reader } := by simp only [read, hx]
    exact runs_of_ok hrun ⟨hsame reader, trivial⟩
  | error e reader =>
    have hrun : read x s = .error e { s with reader } := by simp only [read, hx]
    exact runs_of_error hrun (hsame reader)

theorem extended_putType (n : TypeNode) (s : State) :
    Leads Extended (put (Store.putType n)) s fun t s' => s'.store.typeAt t = .ok n := by
  refine runs_put ((Store.runs_putType s.store n).mono (fun t store h => ⟨h.1, h.2.1⟩) ?_)
  rintro e store ⟨rfl, -⟩
  exact refl_of Extended s

theorem extended_count (s : State) : Leads Extended count s fun _ _ => True := by
  refine (extended_read Reader.unsigned s).bind fun n s1 _ _ => ?_
  refine runs_bind (runs_of_ok rfl ?_)
  split
  · exact runs_bind (runs_fail (refl_of _ s1))
  · exact leads_pure trivial

theorem extended_primitiveNode (p : Primitive) (s : State) :
    Leads Extended (primitiveNode p) s fun _ _ => True := by
  refine runs_bind (runs_of_ok rfl ?_)
  split
  · exact leads_pure trivial
  · refine (extended_putType (.primitive p) s).bind fun t s1 _ _ => ?_
    exact runs_bind (runs_of_ok rfl (runs_pure ⟨.refl s1.store, trivial⟩))

theorem extended_reference (s : State) : Leads Extended (reference slots) s fun _ _ => True := by
  refine (extended_read Reader.signed s).bind fun i s1 _ _ => ?_
  split
  · split
    · exact leads_pure trivial
    · exact leads_fail
  · split
    · exact extended_primitiveNode _ s1
    · exact leads_fail

theorem extended_fields : ∀ (count : Nat) (last : Option UInt32) (s : State),
    Leads Extended (fields slots count last) s fun _ _ => True
  | 0, _, _ => leads_pure trivial
  | count + 1, last, s => by
    refine (extended_read Reader.unsigned s).bind fun n s1 _ _ => ?_
    split
    · exact leads_fail
    dsimp only
    split
    · exact leads_fail
    refine (extended_reference s1).bind fun t s2 _ _ => ?_
    exact (extended_fields count _ s2).bind fun fs s3 _ _ => leads_pure trivial

theorem extended_methods : ∀ (count : Nat) (last : Option String) (s : State),
    Leads Extended (methods slots count last) s fun _ _ => True
  | 0, _, _ => leads_pure trivial
  | count + 1, last, s => by
    refine (extended_read Reader.text s).bind fun name s1 _ _ => ?_
    split
    · exact leads_fail
    refine (extended_reference s1).bind fun t s2 _ _ => ?_
    exact (extended_methods count _ s2).bind fun ms s3 _ _ => leads_pure trivial

theorem extended_replicate {x : Action State α} (h : ∀ s, Leads Extended x s fun _ _ => True)
    (count : Nat) (s : State) : Leads Extended (Action.replicate count x) s fun _ _ => True :=
  (leads_replicate (P := fun _ _ => True) (fun _ _ _ _ => id) fun s1 _ => h s1).mono
    fun _ _ _ _ => trivial

theorem extended_typeList (s : State) : Leads Extended (typeList slots) s fun _ _ => True :=
  (extended_count s).bind fun count s1 _ _ => extended_replicate extended_reference count s1

theorem extended_mode (s : State) : Leads Extended mode s fun _ _ => True := by
  refine (extended_read Reader.unsigned s).bind fun n s1 _ _ => ?_
  split
  · exact leads_pure trivial
  · exact leads_fail

theorem extended_signature (s : State) : Leads Extended (signature slots) s fun _ _ => True := by
  refine (extended_typeList s).bind fun args s1 _ _ => ?_
  refine (extended_typeList s1).bind fun results s2 _ _ => ?_
  refine (extended_read Reader.unsigned s2).bind fun count s3 _ _ => ?_
  split
  · exact leads_fail
  · exact (extended_replicate extended_mode count s3).bind fun modes s4 _ _ => leads_pure trivial

/-- A node that is read is no name. -/
theorem extended_node (s : State) :
    Leads Extended (node slots) s fun n _ => ∀ name, n ≠ .var name := by
  refine (extended_read Reader.signed s).bind fun i s1 _ _ => ?_
  split
  · exact (extended_reference s1).bind fun t s2 _ _ => leads_pure (by simp)
  · exact (extended_reference s1).bind fun t s2 _ _ => leads_pure (by simp)
  · refine (extended_count s1).bind fun count s2 _ _ => ?_
    exact (extended_fields count none s2).bind fun fs s3 _ _ => leads_pure (by simp)
  · refine (extended_count s1).bind fun count s2 _ _ => ?_
    exact (extended_fields count none s2).bind fun fs s3 _ _ => leads_pure (by simp)
  · exact (extended_signature s1).bind fun f s2 _ _ => leads_pure (by simp)
  · refine (extended_count s1).bind fun count s2 _ _ => ?_
    exact (extended_methods count none s2).bind fun ms s3 _ _ => leads_pure (by simp)
  · exact leads_fail
  · exact leads_fail
  · split
    · exact (extended_read _ s1).bind fun _ s2 _ _ => leads_pure (by simp)
    · exact leads_fail

theorem extended_entry (s : State) :
    Leads Extended (entry slots) s fun t s' => s'.store.Solid t :=
  (extended_node s).bind fun n s1 _ hvar =>
    (extended_putType n s1).mono fun _ _ _ hn => ⟨n, hn, hvar⟩

theorem extended_putSlots : ∀ (count first : Nat) (s : State),
    Leads Extended (putSlots first count) s fun _ _ => True
  | 0, _, _ => leads_pure trivial
  | count + 1, first, s =>
    (extended_putType (.var (slotName first)) s).bind fun _ s1 _ _ =>
      (extended_putSlots count (first + 1) s1).bind fun _ _ _ _ => leads_pure trivial

/-! ### The whole header -/

/-- The names of a header are those of its slots, each of which is bound to a type that is no name. -/
structure Named (header : Header) (s : Store) : Prop where
  env : header.env = ⟨header.table.mapIdx fun i type => (slotName i, type)⟩
  solid : ∀ t ∈ header.table, s.Solid t

theorem Named.find?_iff {header : Header} (h : header.Named store) {name : String} {t : TypeId} :
    header.env.find? name = some t ↔ ∃ i, name = slotName i ∧ header.table[i]? = some t := by
  rw [h.env]
  constructor
  · intro hfind
    obtain ⟨l, l', hbindings, -⟩ := List.lookup_eq_some_iff.mp hfind
    dsimp only at hbindings
    have hmem : (name, t) ∈ header.table.mapIdx fun i type => (slotName i, type) := by
      rw [hbindings]
      exact List.mem_append_right _ List.mem_cons_self
    obtain ⟨i, hi, heq⟩ := List.mem_mapIdx.mp hmem
    rw [Prod.mk.injEq] at heq
    exact ⟨i, heq.1.symm, heq.2 ▸ List.getElem?_eq_getElem hi⟩
  · rintro ⟨i, rfl, ht⟩
    exact (lookup_mapIdx slotName fun _ _ => slotName_injective).trans ht

theorem Named.find? {header : Header} (h : header.Named store) {name : String} {t : TypeId}
    (ht : header.env.find? name = some t) : store.Solid t := by
  obtain ⟨i, -, hi⟩ := h.find?_iff.mp ht
  exact h.solid _ (List.mem_of_getElem? hi)

theorem Named.nodup {header : Header} (h : header.Named store) :
    (header.env.bindings.map (·.1)).Nodup := by
  rw [h.env, List.nodup_iff_injective_get]
  intro i j hij
  simpa [Fin.ext_iff] using slotName_injective (by simpa using hij)

theorem extended_body (s : State) :
    Leads Extended body s fun header s' => header.Named s'.store := by
  refine (extended_count s).bind fun count s1 _ _ => ?_
  refine (extended_putSlots count 0 s1).bind fun slots s2 _ _ => ?_
  have htable : Leads Extended (Action.replicate count (entry slots.toArray)) s2
      fun table s' => table.length = count ∧ ∀ t ∈ table, s'.store.Solid t :=
    leads_replicate (R := Extended) (P := fun s t => s.store.Solid t)
      (fun _ _ _ hs h => h.extends hs) fun s3 _ => extended_entry s3
  refine htable.bind fun table s3 _ ⟨_, hsolid⟩ => ?_
  refine (extended_typeList s3).bind fun args s4 hs4 _ => leads_pure ⟨rfl, fun t ht => ?_⟩
  exact (hsolid t ht).extends hs4

theorem parse_named {bytes : List UInt8} {header : Header} {length : Nat}
    (h : parse bytes store = .ok (header, length) store') : header.Named store' := by
  obtain ⟨rest, s, -, hbody, -, rfl⟩ := parse_eq_ok h
  exact ((extended_body _).ok hbody).2

/-- The arguments of a header that is read are settled types of the store. -/
theorem parse_settled {bytes : List UInt8} {header : Header} {length : Nat}
    (h : parse bytes store = .ok (header, length) store') :
    ∃ own, Scope.Settled ⟨store', header.env⟩ own ∧ ∀ t ∈ header.args, own t := by
  obtain ⟨own, hclosed, hargs, -⟩ := parse_closed h
  exact ⟨own, hclosed.settled fun _ _ ht => (parse_named h).find? ht, hargs⟩

/-- Any environment that binds the names of a header to their types shows the same of them. -/
theorem Named.extends {header : Header} (h : header.Named store) {env : Env} (s : Store)
    (henv : ∀ name t, header.env.find? name = some t → env.find? name = some t) :
    Scope.Extends ⟨s, header.env⟩ ⟨s, env⟩ :=
  ⟨fun _ _ => id, henv, Env.length_le h.nodup henv⟩

end Header

end TypedWire
