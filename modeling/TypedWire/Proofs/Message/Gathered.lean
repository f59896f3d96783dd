import Mathlib.Data.List.Dedup
import Mathlib.Data.List.Nodup
import TypedWire.Proofs.Message.Parsed
import TypedWire.Proofs.Onward

/-! What a header costs a store. Each slot of its table takes two nodes, a name and the node of the entry,
    and each type without parts that is referred to takes one, however often it is referred to. So handles
    tell references apart, and a header takes no more nodes than its length allows: none is made before
    its number has been held against the bytes that are left. -/

namespace TypedWire

open TypedWire.Action

/-! ### What is referred to -/

namespace Grammar

variable {ρ : Type} {R : ρ → TypeId → Prop} {s : Store}

/-- The type without parts that is referred to, if it is one. -/
def Ref.primitive? : Ref → Option Primitive
  | .slot _ => none
  | .primitive p => some p

/-- The references of an entry, in order. -/
def Entry.refs : Entry ρ → List ρ
  | .opt r | .vec r => [r]
  | .record fs | .variant fs => fs.map Prod.snd
  | .func args results _ => args ++ results
  | .service ms => ms.map Prod.snd
  | .future _ _ => []

/-- The references of a header, in order. -/
def Preamble.refs (p : Preamble) : List Ref := p.table.flatMap Entry.refs ++ p.args

/-- The types without parts that a header refers to, each once. -/
def Preamble.primitives (p : Preamble) : List Primitive := (p.refs.filterMap Ref.primitive?).dedup

theorem Ref.primitive?_eq_some {r : Ref} {p : Primitive} : r.primitive? = some p ↔ r = .primitive p := by
  cases r <;> simp [Ref.primitive?]

theorem Ref.node_injective : Function.Injective Ref.node := by
  intro r r' h
  cases r with
  | slot i =>
    cases r' with
    | slot j =>
      rw [Ref.node, Ref.node, TypeNode.var.injEq] at h
      rw [Header.slotName_injective h]
    | primitive p => exact absurd h (by simp [Ref.node])
  | primitive p =>
    cases r' with
    | slot j => exact absurd h (by simp [Ref.node])
    | primitive q => simpa [Ref.node] using h

/-- The parts of the node of an entry are what its references denote. -/
theorem Entry.Denotes.refs {e : Entry ρ} {n : TypeNode} (h : e.Denotes R n) :
    List.Forall₂ R e.refs (TypeTable.parts n) := by
  cases h with
  | opt h => exact .cons h .nil
  | vec h => exact .cons h .nil
  | record h => exact List.forall₂_map_left_iff.mpr (List.forall₂_map_right_iff.mpr (h.imp fun _ _ h => h.2))
  | variant h => exact List.forall₂_map_left_iff.mpr (List.forall₂_map_right_iff.mpr (h.imp fun _ _ h => h.2))
  | func ha hr => exact List.rel_append ha hr
  | service h => exact List.forall₂_map_left_iff.mpr (List.forall₂_map_right_iff.mpr (h.imp fun _ _ h => h.2))
  | future => exact .nil

end Grammar

/-- The parts of the node at a handle. -/
def Store.partsAt (s : Store) (t : TypeId) : List TypeId :=
  match s.typeAt t with
  | .ok n => TypeTable.parts n
  | .error _ => []

theorem Store.partsAt_eq {s : Store} {t : TypeId} {n : TypeNode} (h : s.typeAt t = .ok n) :
    s.partsAt t = TypeTable.parts n := by
  rw [Store.partsAt, h]

/-- The references that a header has, in order: those of its table, and its arguments. -/
def Header.refs (header : Header) (s : Store) : List TypeId := header.table.flatMap s.partsAt ++ header.args

namespace Header

open TypedWire.Grammar (Entry Ref Preamble)

variable {slots : Array TypeId} {values : Array Value} {made : Nat} {before given : List TypeId}
variable {s s' : State} {store : Store} {t u : TypeId} {n : TypeNode} {p : Primitive}
variable {α β : Type} {x : Action State α} {f : α → Action State β}
variable {after : α → List TypeId} {final : β → List TypeId}

/-! ### What has been made -/

/-- There are `made` type nodes, and one for each type without parts that was referred to. All references
    that were given out are to slots or to these, and each of these was given out. -/
structure Gathered (slots : Array TypeId) (values : Array Value) (made : Nat) (given : List TypeId)
    (s : State) : Prop where
  values : s.store.values = values
  size : s.store.types.size = made + s.shared.length
  once : (s.shared.map Prod.fst).Nodup
  node : ∀ p t, (p, t) ∈ s.shared → s.store.typeAt t = .ok (.primitive p)
  slot : ∀ k t, slots[k]? = some t → s.store.typeAt t = .ok (.var (slotName k))
  known : ∀ t ∈ given, t ∈ slots ∨ ∃ p, (p, t) ∈ s.shared
  used : ∀ p t, (p, t) ∈ s.shared → t ∈ given

/-- So much has been made, whatever was given out. -/
def Left (values : Array Value) (made : Nat) (s : State) : Prop :=
  ∃ slots given, Gathered slots values made given s

theorem Gathered.left (h : Gathered slots values made given s) : Left values made s := ⟨slots, given, h⟩

theorem Gathered.shared_le (h : Gathered slots values made given s) : s.shared.length ≤ 18 := by
  have hall : s.shared.map Prod.fst ⊆ Primitive.all := by
    intro p _
    cases p with
    | fixed f => cases f <;> decide
    | _ => decide
  have hle := (List.subperm_of_subset h.once hall).length_le
  rwa [List.length_map] at hle

/-- A handle that was given out is the only one of its node. -/
theorem Gathered.unique (h : Gathered slots values made given s) (ht : t ∈ given) (hu : u ∈ given)
    (hn : s.store.typeAt t = .ok n) (hn' : s.store.typeAt u = .ok n) : t = u := by
  have hslot : ∀ v ∈ slots, ∃ k, slots[k]? = some v ∧ s.store.typeAt v = .ok (.var (slotName k)) := by
    intro v hv
    obtain ⟨k, hk⟩ := Array.mem_iff_getElem?.mp hv
    exact ⟨k, hk, h.slot k v hk⟩
  rcases h.known t ht with ht | ⟨p, hp⟩ <;> rcases h.known u hu with hu | ⟨q, hq⟩
  · obtain ⟨k, hk, hvar⟩ := hslot t ht
    obtain ⟨l, hl, hvar'⟩ := hslot u hu
    have hsame : slotName k = slotName l := by
      simpa using hvar.symm.trans (hn.trans (hn'.symm.trans hvar'))
    obtain rfl := slotName_injective hsame
    exact Option.some.inj (hk.symm.trans hl)
  · obtain ⟨k, -, hvar⟩ := hslot t ht
    exact absurd (hvar.symm.trans (hn.trans (hn'.symm.trans (h.node q u hq)))) (by simp)
  · obtain ⟨l, -, hvar⟩ := hslot u hu
    exact absurd (hvar.symm.trans (hn'.trans (hn.symm.trans (h.node p t hp)))) (by simp)
  · have hsame : p = q := by
      simpa using (h.node p t hp).symm.trans (hn.trans (hn'.symm.trans (h.node q u hq)))
    exact congrArg Prod.snd (List.inj_on_of_nodup_map h.once hp hq hsame)

/-! ### Steps -/

/-- Where `before` was given out, the run gives out what makes it `after`, and makes no nodes but those of
    types without parts. -/
def Gathers (slots : Array TypeId) (values : Array Value) (made : Nat) (before : List TypeId)
    (x : Action State α) (after : α → List TypeId) : Prop :=
  ∀ s, Gathered slots values made before s →
    Runs x s (fun a s' => Gathered slots values made (after a) s') fun _ s' => Left values made s'

theorem gathers_pure (a : α) : Gathers slots values made (after a) (pure a) after :=
  fun _ hs => runs_pure hs

theorem gathers_fail (e : Fault) : Gathers slots values made before (fail e) after :=
  fun _ hs => runs_fail hs.left

theorem Gathers.bind (h : Gathers slots values made before x after)
    (hf : ∀ a, Gathers slots values made (after a) (f a) final) :
    Gathers slots values made before (x >>= f) final := fun s hs =>
  runs_bind ((h s hs).post_mono fun a s1 hs1 => hf a s1 hs1)

theorem runs_read {x : Action Reader α} {post : α → State → Prop} {lost : Fault → State → Prop}
    (h : Runs x s.reader (fun a reader => post a { s with reader })
      fun e reader => lost e { s with reader }) : Runs (read x) s post lost :=
  runs_lift (fun reader => { s with reader })
    (fun a reader h => by simp only [read, h]) (fun e reader h => by simp only [read, h]) h

theorem gathers_read (x : Action Reader α) : Gathers slots values made before (read x) fun _ => before := by
  intro s hs
  have hsame : ∀ reader, Gathered slots values made before { s with reader } := fun _ =>
    ⟨hs.values, hs.size, hs.once, hs.node, hs.slot, hs.known, hs.used⟩
  refine runs_read ?_
  unfold Runs
  split
  · exact hsame _
  · exact (hsame _).left

/-- No more is counted than there are bytes left. -/
theorem runs_count (hs : Gathered slots values made before s) : Runs count s
    (fun n s' => n ≤ s.reader.remaining ∧ Gathered slots values made before s')
    fun _ s' => Left values made s' := by
  have honward := Reader.program_unsigned.onward s.reader
  have hread : Runs (read Reader.unsigned) s (fun _ s' => s'.reader.remaining ≤ s.reader.remaining)
      fun _ _ => True := by
    refine runs_read (Runs.mono honward ?_ fun _ _ _ => trivial)
    rintro n reader ⟨⟨k, -, rfl⟩, -⟩
    exact (Reader.remaining_drop s.reader k).trans_le (Nat.sub_le _ _)
  refine runs_bind ((Runs.and (gathers_read Reader.unsigned s hs) hread).mono ?_ fun _ _ h => h.1)
  rintro n s1 ⟨hs1, hle⟩
  refine runs_bind (runs_of_ok rfl ?_)
  split
  · exact runs_bind (runs_fail hs1.left)
  · next hfits => exact runs_pure ⟨Nat.le_trans (Nat.le_of_not_lt hfits) hle, hs1⟩

theorem gathers_count : Gathers slots values made before count fun _ => before := fun _ hs =>
  (runs_count hs).post_mono fun _ _ h => h.2

theorem runs_putNode (n : TypeNode) : Runs (put (Store.putType n)) s
    (fun t s' => s.store.Extends s'.store ∧ s'.store.typeAt t = .ok n ∧
      s'.store.types.size = s.store.types.size + 1 ∧ s'.store.values = s.store.values ∧
      s'.shared = s.shared)
    fun _ s' => s' = s := by
  have hvalues : Runs (Store.putType n) s.store (fun _ store => store.values = s.store.values)
      fun _ _ => True := by
    refine runs_bind ((Store.runs_charge s.store Store.typeCharge).mono ?_ fun _ _ _ => trivial)
    rintro - store rfl
    exact runs_of_ok rfl rfl
  refine runs_put (((Store.runs_putType s.store n).and hvalues).mono ?_ ?_)
  · rintro t store ⟨⟨hs, ht, -, htypes, -⟩, hsame⟩
    exact ⟨hs, ht, by rw [htypes, Array.size_push], hsame, rfl⟩
  · rintro e store ⟨⟨rfl, -⟩, -⟩
    rfl

/-- The node of a type without parts is made at the first reference, and given out at each. -/
theorem gathers_primitiveNode (p : Primitive) :
    Gathers slots values made before (primitiveNode p) fun t => before ++ [t] := by
  intro s hs
  refine runs_bind (runs_of_ok rfl ?_)
  split
  · next t ht =>
    obtain ⟨l, l', hshared, -⟩ := List.lookup_eq_some_iff.mp ht
    have hmem : (p, t) ∈ s.shared := hshared ▸ List.mem_append_right _ List.mem_cons_self
    refine runs_pure ⟨hs.values, hs.size, hs.once, hs.node, hs.slot, ?_, ?_⟩
    · exact List.forall_mem_append.mpr ⟨hs.known, List.forall_mem_singleton.mpr (.inr ⟨p, hmem⟩)⟩
    · exact fun q u hu => List.mem_append_left _ (hs.used q u hu)
  · next hnone =>
    refine runs_bind ((runs_putNode _).mono ?_ fun _ _ h => h ▸ hs.left)
    rintro t s1 ⟨hgrown, ht, hsize, hvalues, hshared⟩
    refine runs_bind (runs_of_ok rfl (runs_pure ⟨hvalues.trans hs.values, ?_, ?_, ?_, ?_, ?_, ?_⟩))
    · dsimp only
      rw [hsize, hs.size, hshared, List.length_cons, Nat.add_assoc]
    · have hnew : p ∉ s.shared.map Prod.fst := by
        intro hp
        obtain ⟨⟨_, u⟩, hmem, rfl⟩ := List.mem_map.mp hp
        exact absurd (List.lookup_eq_none_iff.mp hnone _ hmem) (by simp)
      dsimp only
      rw [hshared, List.map_cons]
      exact List.nodup_cons.mpr ⟨hnew, hs.once⟩
    · intro q u hu
      rcases List.mem_cons.mp hu with heq | hu
      · obtain ⟨rfl, rfl⟩ := Prod.mk.inj heq
        exact ht
      · exact hgrown.typeAt _ _ (hs.node q u (hshared ▸ hu))
    · exact fun k u hu => hgrown.typeAt _ _ (hs.slot k u hu)
    · intro u hu
      rcases List.mem_append.mp hu with hu | hu
      · exact (hs.known u hu).imp_right fun ⟨q, hq⟩ => ⟨q, List.mem_cons_of_mem _ (hshared ▸ hq)⟩
      · obtain rfl := List.mem_singleton.mp hu
        exact .inr ⟨p, List.mem_cons_self⟩
    · intro q u hu
      rcases List.mem_cons.mp hu with heq | hu
      · obtain ⟨rfl, rfl⟩ := Prod.mk.inj heq
        exact List.mem_append_right _ List.mem_cons_self
      · exact List.mem_append_left _ (hs.used q u (hshared ▸ hu))

theorem gathers_reference :
    Gathers slots values made before (reference slots) fun t => before ++ [t] := by
  refine (gathers_read Reader.signed).bind fun i => ?_
  split
  · split
    · next t ht =>
      intro s hs
      have hslot : t ∈ slots := Array.mem_of_getElem? ht
      refine runs_pure ⟨hs.values, hs.size, hs.once, hs.node, hs.slot, ?_, ?_⟩
      · exact List.forall_mem_append.mpr ⟨hs.known, List.forall_mem_singleton.mpr (.inl hslot)⟩
      · exact fun q u hu => List.mem_append_left _ (hs.used q u hu)
    · exact gathers_fail _
  · split
    · exact gathers_primitiveNode _
    · exact gathers_fail _

/-! ### Nodes -/

theorem gathers_replicate {refs : α → List TypeId}
    (h : ∀ before, Gathers slots values made before x fun a => before ++ refs a) :
    ∀ (count : Nat) (before : List TypeId),
      Gathers slots values made before (Action.replicate count x) fun as => before ++ as.flatMap refs
  | 0, before => fun s hs => runs_pure (by simpa using hs)
  | count + 1, before => by
    rw [replicate_succ]
    refine (h before).bind fun a => (gathers_replicate h count _).bind fun as s hs => runs_pure ?_
    simpa using hs

theorem gathers_fields : ∀ (count : Nat) (last : Option UInt32) (before : List TypeId),
    Gathers slots values made before (fields slots count last) fun fs => before ++ fs.map (·.type)
  | 0, _, before => fun s hs => runs_pure (by simpa using hs)
  | count + 1, last, before => by
    refine (gathers_read Reader.unsigned).bind fun n => ?_
    split
    · exact gathers_fail _
    dsimp only
    split
    · exact gathers_fail _
    refine gathers_reference.bind fun t => (gathers_fields count _ _).bind fun fs s hs => runs_pure ?_
    simpa using hs

theorem gathers_methods : ∀ (count : Nat) (last : Option String) (before : List TypeId),
    Gathers slots values made before (methods slots count last) fun ms => before ++ ms.map (·.type)
  | 0, _, before => fun s hs => runs_pure (by simpa using hs)
  | count + 1, last, before => by
    refine (gathers_read Reader.text).bind fun name => ?_
    split
    · exact gathers_fail _
    refine gathers_reference.bind fun t => (gathers_methods count _ _).bind fun ms s hs => runs_pure ?_
    simpa using hs

theorem gathers_typeList :
    Gathers slots values made before (typeList slots) fun types => before ++ types := by
  refine gathers_count.bind fun count => ?_
  have hone : ∀ before, Gathers slots values made before (reference slots) fun t => before ++ [t] :=
    fun _ => gathers_reference
  simpa using gathers_replicate hone count before

theorem gathers_signature :
    Gathers slots values made before (signature slots) fun f => before ++ (f.args ++ f.results) := by
  have hmode : ∀ before, Gathers slots values made before mode fun _ => before ++ [] := by
    intro before
    rw [List.append_nil]
    refine (gathers_read Reader.unsigned).bind fun n => ?_
    split
    · exact fun _ hs => runs_pure hs
    · exact gathers_fail _
  refine gathers_typeList.bind fun args => gathers_typeList.bind fun results => ?_
  refine (gathers_read Reader.unsigned).bind fun count => ?_
  split
  · exact gathers_fail _
  refine (gathers_replicate hmode count _).bind fun modes s hs => runs_pure ?_
  have hnone : modes.flatMap (fun _ => ([] : List TypeId)) = [] := by simp
  simpa [hnone] using hs

theorem gathers_node :
    Gathers slots values made before (node slots) fun n => before ++ TypeTable.parts n := by
  refine (gathers_read Reader.signed).bind fun i => ?_
  split
  · exact gathers_reference.bind fun t => gathers_pure _
  · exact gathers_reference.bind fun t => gathers_pure _
  · exact gathers_count.bind fun count => (gathers_fields count none _).bind fun fs => gathers_pure _
  · exact gathers_count.bind fun count => (gathers_fields count none _).bind fun fs => gathers_pure _
  · exact gathers_signature.bind fun f => gathers_pure _
  · exact gathers_count.bind fun count => (gathers_methods count none _).bind fun ms => gathers_pure _
  · exact gathers_fail _
  · exact gathers_fail _
  · split
    · refine (gathers_read _).bind fun _ s hs => runs_pure ?_
      simpa [TypeTable.parts] using hs
    · exact gathers_fail _

/-! ### The whole header -/

theorem Gathered.node_put (hs : Gathered slots values made given s) (hgrown : s.store.Extends s'.store)
    (hsize : s'.store.types.size = s.store.types.size + 1) (hvalues : s'.store.values = s.store.values)
    (hshared : s'.shared = s.shared) : Gathered slots values (made + 1) given s' where
  values := hvalues.trans hs.values
  size := by rw [hsize, hs.size, hshared]; omega
  once := hshared ▸ hs.once
  node p t ht := hgrown.typeAt _ _ (hs.node p t (hshared ▸ ht))
  slot k t ht := hgrown.typeAt _ _ (hs.slot k t ht)
  known := hshared ▸ hs.known
  used := hshared ▸ hs.used

theorem runs_entry (hs : Gathered slots values made given s) : Runs (entry slots) s
    (fun t s' => ∃ n, s'.store.typeAt t = .ok n ∧
      Gathered slots values (made + 1) (given ++ TypeTable.parts n) s')
    fun _ s' => Left values made s' := by
  refine runs_bind ((gathers_node s hs).post_mono fun n s1 hs1 => ?_)
  refine (runs_putNode n).mono ?_ fun _ _ h => h ▸ hs1.left
  rintro t s2 ⟨hgrown, ht, hsize, hvalues, hshared⟩
  exact ⟨n, ht, hs1.node_put hgrown hsize hvalues hshared⟩

/-- Where the nodes of all handles have stayed, so have their parts. -/
theorem partsAt_extends {table : List TypeId} {s s' : Store} (hs : s.Extends s')
    (htable : ∀ t ∈ table, ∃ n, s.typeAt t = .ok n) :
    table.flatMap s'.partsAt = table.flatMap s.partsAt := by
  refine List.flatMap_congr fun t ht => ?_
  obtain ⟨n, hn⟩ := htable t ht
  rw [Store.partsAt_eq hn, Store.partsAt_eq (hs.typeAt t n hn)]

theorem runs_entries : ∀ (count : Nat) {made : Nat} {given : List TypeId} {s : State},
    Gathered slots values made given s → Runs (Action.replicate count (entry slots)) s
      (fun table s' => table.length = count ∧ (∀ t ∈ table, ∃ n, s'.store.typeAt t = .ok n) ∧
        Gathered slots values (made + count) (given ++ table.flatMap s'.store.partsAt) s')
      fun _ s' => ∃ k ≤ count, Left values (made + k) s'
  | 0, _, _, _, hs => runs_pure ⟨rfl, List.forall_mem_nil _, by simpa using hs⟩
  | count + 1, made, given, s, hs => by
    rw [replicate_succ]
    refine runs_bind ((runs_entry hs).mono ?_ fun _ _ h => ⟨0, Nat.zero_le _, h⟩)
    rintro t s1 ⟨n, hn, hs1⟩
    have hentry : ∀ s, Leads Extended (entry slots) s fun _ _ => True :=
      fun s => (extended_entry s).mono fun _ _ _ _ => trivial
    have hextended := extended_replicate hentry count s1
    refine runs_bind ((Runs.and (runs_entries count hs1) hextended).mono ?_ ?_)
    · rintro table s2 ⟨⟨hlength, hlive, hs2⟩, hgrown, -⟩
      have hn2 : s2.store.typeAt t = .ok n := hgrown.typeAt t n hn
      refine runs_pure ⟨by rw [List.length_cons, hlength], ?_, ?_⟩
      · exact List.forall_mem_cons.mpr ⟨⟨n, hn2⟩, hlive⟩
      · rw [List.flatMap_cons, Store.partsAt_eq hn2, ← List.append_assoc, Nat.add_comm count 1,
          ← Nat.add_assoc]
        exact hs2
    · rintro e s2 ⟨⟨k, hk, hleft⟩, -⟩
      exact ⟨1 + k, by omega, by rwa [← Nat.add_assoc]⟩

/-- The names of the slots are put in first, one after another. -/
theorem runs_putSlots : ∀ (count : Nat) {done : List TypeId} {made : Nat} {s : State},
    Gathered done.toArray values made [] s → Runs (putSlots done.length count) s
      (fun slots s' => slots.length = count ∧ Gathered (done ++ slots).toArray values (made + count) [] s')
      fun _ s' => ∃ k ≤ count, Left values (made + k) s'
  | 0, _, _, _, hs => runs_pure ⟨rfl, by simpa using hs⟩
  | count + 1, done, made, s, hs => by
    refine runs_bind ((runs_putNode _).mono ?_ fun _ _ h => ⟨0, Nat.zero_le _, h ▸ hs.left⟩)
    rintro t s1 ⟨hgrown, ht, hsize, hvalues, hshared⟩
    have hs1 := hs.node_put hgrown hsize hvalues hshared
    have hnext : Gathered (done ++ [t]).toArray values (made + 1) [] s1 := by
      refine ⟨hs1.values, hs1.size, hs1.once, hs1.node, fun k u hu => ?_, by simp, hs1.used⟩
      rw [List.getElem?_toArray, List.getElem?_append] at hu
      split at hu
      · exact hs1.slot k u (by rwa [List.getElem?_toArray])
      · next hk =>
        rw [List.getElem?_singleton, Option.ite_none_right_eq_some] at hu
        obtain ⟨hzero, heq⟩ := hu
        obtain rfl : k = done.length := by omega
        exact Option.some.inj heq ▸ ht
    have hrest := runs_putSlots count hnext
    rw [List.length_append, List.length_singleton] at hrest
    refine runs_bind (hrest.mono ?_ ?_)
    · rintro slots s2 ⟨hlength, hs2⟩
      refine runs_pure ⟨by rw [List.length_cons, hlength], ?_⟩
      rw [List.append_cons, Nat.add_comm count 1, ← Nat.add_assoc]
      exact hs2
    · rintro e s2 ⟨k, hk, hleft⟩
      exact ⟨1 + k, by omega, by rwa [← Nat.add_assoc]⟩

theorem runs_body (hs : Gathered #[] values made [] s) : Runs body s
    (fun header s' => header.table.length ≤ s.reader.remaining ∧
      ∃ slots, Gathered slots values (made + 2 * header.table.length) (header.refs s'.store) s')
    fun _ s' => ∃ k ≤ 2 * s.reader.remaining, Left values (made + k) s' := by
  refine runs_bind ((runs_count hs).mono ?_ fun _ _ h => ⟨0, Nat.zero_le _, h⟩)
  rintro count s1 ⟨hcount, hs1⟩
  have hnone : Gathered ([] : List TypeId).toArray values made [] s1 := hs1
  refine runs_bind ((runs_putSlots count hnone).mono ?_ ?_)
  · rintro slots s2 ⟨-, hs2⟩
    refine runs_bind ((runs_entries count hs2).mono ?_ ?_)
    · rintro table s3 ⟨hlength, hlive, hs3⟩
      refine runs_bind ((Runs.and (gathers_typeList s3 hs3) (extended_typeList s3)).mono ?_ ?_)
      · rintro args s4 ⟨hs4, hgrown, -⟩
        refine runs_pure ⟨hlength.trans_le hcount, ([] ++ slots).toArray, ?_⟩
        rw [Header.refs, partsAt_extends hgrown hlive, hlength, Nat.two_mul, ← Nat.add_assoc]
        exact hs4
      · rintro e s4 ⟨hleft, -⟩
        exact ⟨count + count, by omega, by rwa [← Nat.add_assoc]⟩
    · rintro e s3 ⟨k, hk, hleft⟩
      exact ⟨count + k, by omega, by rwa [← Nat.add_assoc]⟩
  · rintro e s2 ⟨k, hk, hleft⟩
    exact ⟨k, by omega, hleft⟩

/-- A header is read from what follows the magic bytes, if they are there. -/
theorem runs_parse_body {bytes : List UInt8} {post : Header × Nat → Store → Prop}
    {lost : Fault → Store → Prop} (hearly : ∀ e, lost e store)
    (hbody : Runs body ⟨.ofBytes bytes magic.length, store, []⟩
      (fun header s => post (header, s.reader.offset) s.store) fun e s => lost e s.store) :
    Runs (parse bytes) store post lost := by
  unfold Runs parse
  split_ifs with hshort hmagic
  · exact hearly _
  · exact hearly _
  · rcases hbody.ends with ⟨header, s, hrun, hpost⟩ | ⟨e, s, hrun, hlost⟩
    · rw [hrun]
      exact hpost
    · rw [hrun]
      exact hlost

theorem runs_parse_gathered (bytes : List UInt8) (store : Store) : Runs (parse bytes) store
    (fun (header, _) store' => header.table.length ≤ bytes.length ∧ ∃ slots s, s.store = store' ∧
      Gathered slots store.values (store.types.size + 2 * header.table.length) (header.refs store') s)
    fun _ store' => ∃ k ≤ 2 * bytes.length, ∃ s, s.store = store' ∧
      Left store.values (store.types.size + k) s := by
  have hempty : Gathered #[] store.values store.types.size []
      ⟨.ofBytes bytes magic.length, store, []⟩ :=
    ⟨rfl, rfl, .nil, by simp, by simp, by simp, by simp⟩
  have hremaining : (Reader.ofBytes bytes magic.length).remaining ≤ bytes.length := by
    unfold Reader.ofBytes Reader.remaining
    dsimp only
    split
    · simp
    · simp
  refine runs_parse_body (fun _ => ⟨0, Nat.zero_le _, _, rfl, hempty.left⟩)
    ((runs_body hempty).mono ?_ ?_)
  · rintro header s ⟨hlength, slots, hs⟩
    exact ⟨hlength.trans hremaining, slots, s, rfl, hs⟩
  · rintro e s ⟨k, hk, hleft⟩
    exact ⟨k, hk.trans (Nat.mul_le_mul_left 2 hremaining), s, rfl, hleft⟩

/-! ### What the handles tell -/

/-- The references of what a header says denote the references that it has. -/
theorem denotes_refs {p : Preamble} {header : Header} {store : Store} (h : p.Denotes header store) :
    List.Forall₂ (Ref.Denotes store) p.refs (header.refs store) := by
  have hentry : ∀ (e : Entry Ref) (t : TypeId),
      (∃ n, store.typeAt t = .ok n ∧ e.Denotes (Ref.Denotes store) n) →
      List.Forall₂ (Ref.Denotes store) e.refs (store.partsAt t) := by
    rintro e t ⟨n, hn, he⟩
    rw [Store.partsAt_eq hn]
    exact he.refs
  exact List.rel_append (List.rel_flatMap h.table hentry) h.args

/-- As many types without parts are shared as are referred to. -/
theorem Gathered.shared_length {refs : List Ref} (h : Gathered slots values made given s)
    (hrefs : List.Forall₂ (Ref.Denotes s.store) refs given) :
    s.shared.length = (refs.filterMap Ref.primitive?).dedup.length := by
  have hperm : (s.shared.map Prod.fst).Perm (refs.filterMap Ref.primitive?).dedup := by
    refine (List.perm_ext_iff_of_nodup h.once (List.nodup_dedup _)).mpr fun p => ?_
    rw [List.mem_dedup, List.mem_filterMap, List.mem_map]
    constructor
    · rintro ⟨⟨p, t⟩, hmem, rfl⟩
      obtain ⟨r, hr, ht⟩ := forall₂_partner hrefs t (h.used p t hmem)
      have hnode : r.node = (Ref.primitive p).node := Except.ok.inj (ht.symm.trans (h.node p t hmem))
      exact ⟨r, hr, by rw [Ref.node_injective hnode]; rfl⟩
    · rintro ⟨r, hr, hp⟩
      obtain rfl := Ref.primitive?_eq_some.mp hp
      obtain ⟨t, ht, hdenotes⟩ := forall₂_partner hrefs.flip _ hr
      have hnode : s.store.typeAt t = .ok (.primitive p) := hdenotes
      rcases h.known t ht with hslot | ⟨q, hq⟩
      · obtain ⟨k, hk⟩ := Array.mem_iff_getElem?.mp hslot
        exact absurd ((h.slot k t hk).symm.trans hnode) (by simp)
      · have hsame : q = p := by simpa using (h.node q t hq).symm.trans hnode
        exact ⟨(q, t), hq, hsame⟩
  rw [← hperm.length_eq, List.length_map]

/-- Handles that were given out tell apart what is referred to, and nothing else. -/
theorem Gathered.eq_iff {refs : List Ref} (h : Gathered slots values made given s)
    (hrefs : List.Forall₂ (Ref.Denotes s.store) refs given) :
    ∀ a ∈ refs.zip given, ∀ b ∈ refs.zip given, a.2 = b.2 ↔ a.1 = b.1 := by
  have hpairs : ∀ {r t}, (r, t) ∈ refs.zip given → Ref.Denotes s.store r t :=
    (List.forall₂_iff_zip.mp hrefs).2
  rintro ⟨r, t⟩ ha ⟨r', t'⟩ hb
  have ht : s.store.typeAt t = .ok r.node := hpairs ha
  have ht' : s.store.typeAt t' = .ok r'.node := hpairs hb
  constructor
  · rintro rfl
    exact Ref.node_injective (Except.ok.inj (ht.symm.trans ht'))
  · rintro rfl
    exact h.unique (List.of_mem_zip ha).2 (List.of_mem_zip hb).2 ht ht'

theorem parse_denotes {bytes : List UInt8} {header : Header} {length : Nat} {store' : Store} {p : Preamble}
    (h : parse bytes store = .ok (header, length) store') (hp : bytes.take length ∈ p.spellings) :
    p.Denotes header store' := by
  have hspelled := runs_parse_spelled hp (bytes.drop length) store
  rw [List.take_append_drop] at hspelled
  exact (hspelled.ok h).2

theorem extended_parse (bytes : List UInt8) (store : Store) :
    Runs (parse bytes) store (fun _ store' => store.Extends store') fun _ store' => store.Extends store' :=
  runs_parse_body (fun _ => .refl store)
    (Runs.mono (extended_body ⟨.ofBytes bytes magic.length, store, []⟩) (fun _ _ h => h.1) fun _ _ h => h)

/-- Reading a header puts in no values, and no more type nodes than two for each byte and one for each
    type without parts; so it is where it gives up, too. Where it ends well, it has put in two for each
    slot of the table and one for each type without parts that is referred to; and two references have
    the same handle exactly if they are to the same slot or to the same type. -/
theorem parse_gathers (bytes : List UInt8) (store : Store) :
    (store.Extends ((parse bytes).outcome store).2 ∧
      ((parse bytes).outcome store).2.values = store.values ∧
      ((parse bytes).outcome store).2.types.size ≤ store.types.size + 2 * bytes.length + 18) ∧
    ∀ header length s, parse bytes store = .ok (header, length) s →
      (∃ p : Preamble, bytes.take length ∈ p.spellings) ∧
      ∀ p : Preamble, bytes.take length ∈ p.spellings →
        s.types.size = store.types.size + 2 * p.table.length + p.primitives.length ∧
        List.Forall₂ (Ref.Denotes s) p.refs (header.refs s) ∧
        ∀ a ∈ p.refs.zip (header.refs s), ∀ b ∈ p.refs.zip (header.refs s), a.2 = b.2 ↔ a.1 = b.1 := by
  have hgathered := runs_parse_gathered bytes store
  constructor
  · have hextends := extended_parse bytes store
    rcases (Runs.and hgathered hextends).ends with
      ⟨⟨header, length⟩, s, hrun, ⟨hlength, slots, state, rfl, hs⟩, hgrown⟩ |
      ⟨e, s, hrun, ⟨k, hk, state, rfl, slots, given, hs⟩, hgrown⟩
    · have hshared := hs.shared_le
      have hsize := hs.size
      rw [outcome_eq_ok.mpr hrun]
      exact ⟨hgrown, hs.values, by dsimp only; omega⟩
    · have hshared := hs.shared_le
      have hsize := hs.size
      rw [outcome, hrun]
      exact ⟨hgrown, hs.values, by dsimp only; omega⟩
  · intro header length s hrun
    refine ⟨(parse_spelled hrun).2, fun p hp => ?_⟩
    obtain ⟨-, slots, state, rfl, hs⟩ := hgathered.ok hrun
    have hdenotes := parse_denotes hrun hp
    have hrefs := denotes_refs hdenotes
    refine ⟨?_, hrefs, hs.eq_iff hrefs⟩
    rw [hs.size, hs.shared_length hrefs, hdenotes.table.length_eq]
    rfl

/-- A message with an option of a number in its table, a number and the option as its arguments. -/
def optMessage : List UInt8 := [0x44, 0x49, 0x44, 0x4c, 1, 0x6e, 0x7d, 2, 0x7d, 0]

/-- Two nodes are put in for the slot, and one for the number, which is referred to twice. -/
theorem opt_gathered : ∃ header s, parse optMessage {} = .ok (header, 10) s ∧ s.types.size = 3 ∧
    ∃ number slot, header.refs s = [number, number, slot] ∧ number ≠ slot := by
  have hread : (parse optMessage).passes {} (fun (_, length) _ => decide (length = 10)) = true := by
    decide +kernel
  obtain ⟨⟨header, length⟩, s, hrun, hlength⟩ := passes_iff.mp hread
  obtain rfl : length = 10 := of_decide_eq_true hlength
  have hentry : [0x6e, 0x7d] ∈ (Entry.opt (Ref.primitive .nat)).spellings (Ref.spellings 1) :=
    ⟨[0x6e], ⟨by decide, by decide, by decide, by simp⟩, [0x7d],
      ⟨by decide, by decide, by decide, by simp⟩, rfl⟩
  have htable : [1, 0x6e, 0x7d] ∈
      Grammar.counted (Entry.spellings (Ref.spellings 1)) [Entry.opt (Ref.primitive .nat)] :=
    ⟨[1], ⟨by decide, by decide, by decide⟩, _, mem_prod_cons.mpr ⟨_, hentry, [], rfl, rfl⟩, rfl⟩
  have hnumber : [0x7d] ∈ (Ref.primitive .nat).spellings 1 := ⟨by decide, by decide, by decide, by simp⟩
  have hslot : [0] ∈ (Ref.slot 0).spellings 1 := ⟨by decide, by decide, by decide, by decide, by simp⟩
  have hargs : [2, 0x7d, 0] ∈ Grammar.counted (Ref.spellings 1) [Ref.primitive .nat, Ref.slot 0] :=
    ⟨[2], ⟨by decide, by decide, by decide⟩, _, mem_prod_cons.mpr
      ⟨_, hnumber, _, mem_prod_cons.mpr ⟨_, hslot, [], rfl, rfl⟩, rfl⟩, rfl⟩
  obtain ⟨-, hspelled⟩ := (parse_gathers optMessage {}).2 header 10 s hrun
  obtain ⟨hsize, hrefs, htell⟩ := hspelled ⟨[.opt (.primitive .nat)], [.primitive .nat, .slot 0]⟩
    ⟨utf8 "DIDL", rfl, _, Language.append_mem_mul htable hargs, by decide⟩
  obtain ⟨a, b, c, hthree⟩ := List.length_eq_three.mp hrefs.length_eq.symm
  rw [hthree] at htell
  have hpairs : ∀ x ∈ [(Ref.primitive .nat, a), (Ref.primitive .nat, b), (Ref.slot 0, c)],
      ∀ y ∈ [(Ref.primitive .nat, a), (Ref.primitive .nat, b), (Ref.slot 0, c)],
      x.2 = y.2 ↔ x.1 = y.1 := htell
  have hab : a = b := (hpairs (.primitive .nat, a) (by simp) (.primitive .nat, b) (by simp)).mpr rfl
  have hac : a = c ↔ Ref.primitive .nat = Ref.slot 0 :=
    hpairs (.primitive .nat, a) (by simp) (.slot 0, c) (by simp)
  exact ⟨header, s, hrun, hsize, a, c, hab ▸ hthree, fun hsame => absurd (hac.mp hsame) (by decide)⟩

end Header

end TypedWire
