import TypedWire.Proofs.Growth
import TypedWire.Proofs.Message.Received
import TypedWire.Proofs.Schema.Growing

/-! The types that a header brings are closed: each lies in the store, its parts are among them, and a
    name among them is bound to one of them. So whatever else is put into the store or bound later,
    what lies inside an argument type stays as the header has it, and is canonical. -/

namespace TypedWire

open TypedWire.Action

namespace Scope

/-- The types of which `own` holds are canonical nodes that lead to types of the same sort only. -/
def Closed (w : Scope) (own : TypeId → Prop) : Prop :=
  ∀ t, own t → ∃ n, w.store.typeAt t = .ok n ∧ n.Canonical ∧ (∀ c ∈ TypeTable.parts n, own c) ∧
    ∀ name, n = .var name → ∃ b, w.env.find? name = some b ∧ own b

variable {w w' : Scope} {own : TypeId → Prop} {t u r : TypeId} {n : TypeNode}

theorem Closed.extends (h : w.Closed own) (hw : w.Extends w') : w'.Closed own := by
  intro t ht
  obtain ⟨n, hn, hcanon, hparts, hname⟩ := h t ht
  refine ⟨n, hw.typeAt t n hn, hcanon, hparts, fun name hvar => ?_⟩
  obtain ⟨b, hb, hown⟩ := hname name hvar
  exact ⟨b, hw.bound name b hb, hown⟩

theorem Closed.followWithin (h : w.Closed own) : ∀ (hops : Nat) {t r : TypeId}, own t →
    w.env.followWithin w.store hops t = .ok r → own r
  | 0, _, _, _, hr => by simp [Env.followWithin] at hr
  | hops + 1, t, r, ht, hr => by
    obtain ⟨n, hn, -, -, hname⟩ := h t ht
    simp only [Env.followWithin, hn, Except.bind_eq_ok, Except.ok.injEq] at hr
    obtain ⟨_, rfl, hr⟩ := hr
    cases n with
    | var name =>
      obtain ⟨b, hb, hown⟩ := hname name rfl
      simp only [hb] at hr
      exact h.followWithin hops hown hr
    | _ => exact Except.pure_eq_ok.mp hr ▸ ht

theorem Closed.root (h : w.Closed own) (ht : own t) (hs : w.StandsFor t r n) : own r :=
  h.followWithin _ ht hs.follow

theorem Closed.reaches (h : w.Closed own) (ht : own t) (hu : w.Reaches t u) : own u := by
  induction hu with
  | refl => exact ht
  | part _ hs hc ih =>
    obtain ⟨n, hn, -, hparts, -⟩ := h _ (h.root ih hs)
    obtain rfl := Except.ok.inj (hs.node.symm.trans hn)
    exact hparts _ hc

/-- What lies inside one of the types is canonical. -/
theorem Closed.canonical (h : w.Closed own) (ht : own t) : w.Throughout TypeNode.Canonical t := by
  intro u r n hu hs
  obtain ⟨m, hm, hcanon, -⟩ := h r (h.root (h.reaches ht hu) hs)
  obtain rfl := Except.ok.inj (hs.node.symm.trans hm)
  exact hcanon

end Scope

namespace Header

/-! ### What a header may put into the store -/

/-- The type was put in after the first `first`. -/
def Local (first : Nat) (s : Store) (t : TypeId) : Prop := first ≤ t.index ∧ t.index < s.types.size

/-- The node is canonical, its parts were put in after the first `first` types, and it is no name but
    that of one of the first `names` slots. -/
structure Owned (first names : Nat) (s : Store) (n : TypeNode) : Prop where
  canonical : n.Canonical
  parts : ∀ c ∈ TypeTable.parts n, Local first s c
  name : ∀ name, n = .var name → ∃ k < names, name = slotName k

/-- Whatever was put in after the first `first` types is owned, and so is what is kept of it. -/
structure Own (first names : Nat) (s : State) : Prop where
  node : ∀ (i : Nat) n, first ≤ i → s.store.types[i]? = some n → Owned first names s.store n
  shared : ∀ p t, s.shared.lookup p = some t → Local first s.store t

/-- The types have only become more, and if they were owned, they still are. -/
structure Grown (first names : Nat) (s s' : State) : Prop where
  size : s.store.types.size ≤ s'.store.types.size
  own : Own first names s → Own first names s'

variable {first names : Nat} {s s' : State} {store store' : Store} {n : TypeNode} {t : TypeId}
variable {α : Type} {slots : Array TypeId}

instance : IsPreorder State (Grown first names) where
  refl _ := ⟨Nat.le_refl _, id⟩
  trans _ _ _ h h' := ⟨Nat.le_trans h.size h'.size, fun hs => h'.own (h.own hs)⟩

theorem Local.later (h : Local first store t) (hle : store.types.size ≤ store'.types.size) :
    Local first store' t :=
  ⟨h.1, Nat.lt_of_lt_of_le h.2 hle⟩

theorem Owned.later (h : Owned first names store n) (hle : store.types.size ≤ store'.types.size) :
    Owned first names store' n :=
  ⟨h.canonical, fun c hc => (h.parts c hc).later hle, h.name⟩

/-- All of them were put in after the first `first` types. -/
abbrev Locals (first : Nat) (s : State) (types : List TypeId) : Prop :=
  ∀ t ∈ types, Local first s.store t

theorem Locals.later {types : List TypeId} (h : Locals first s types) (hs : Grown first names s s') :
    Locals first s' types :=
  fun t ht => (h t ht).later hs.size

/-! ### Steps -/

theorem leads_read (x : Action Reader α) : Leads (Grown first names) (read x) s fun _ _ => True := by
  have hsame : ∀ reader, Grown first names s { s with reader } :=
    fun reader => ⟨Nat.le_refl _, fun h => ⟨h.node, h.shared⟩⟩
  cases hx : x s.reader with
  | ok a reader =>
    have hrun : read x s = .ok a { s with reader } := by simp only [read, hx]
    exact runs_of_ok hrun ⟨hsame reader, trivial⟩
  | error e reader =>
    have hrun : read x s = .error e { s with reader } := by simp only [read, hx]
    exact runs_of_error hrun (hsame reader)

theorem leads_count : Leads (Grown first names) count s fun _ _ => True := by
  refine (leads_read Reader.unsigned).bind fun n s1 _ _ => ?_
  refine runs_bind (runs_of_ok rfl ?_)
  split
  · exact runs_bind (runs_fail (refl_of _ s1))
  · exact leads_pure trivial

theorem leads_putType (hn : Owned first names s.store n) (hle : first ≤ s.store.types.size) :
    Leads (Grown first names) (put (Store.putType n)) s fun t s' => Local first s'.store t := by
  refine runs_put ((Store.runs_putType s.store n).mono ?_ ?_)
  · rintro t store ⟨-, -, hindex, htypes, -⟩
    have hsize : store.types.size = s.store.types.size + 1 := by rw [htypes, Array.size_push]
    have hgrown : s.store.types.size ≤ store.types.size := by omega
    refine ⟨⟨hgrown, fun h => ⟨fun i m hi hm => ?_, fun p t ht => (h.shared p t ht).later hgrown⟩⟩, ?_⟩
    · rw [htypes, Array.getElem?_push] at hm
      split at hm
      · exact Option.some.inj hm ▸ hn.later hgrown
      · exact (h.node i m hi hm).later hgrown
    · refine ⟨hindex ▸ hle, ?_⟩
      show t.index < store.types.size
      omega
  · rintro e store ⟨rfl, -⟩
    exact refl_of _ s

/-- The reader of table entries is in the midst of a header. -/
structure Amid (first names : Nat) (slots : Array TypeId) (s : State) : Prop where
  own : Own first names s
  le : first ≤ s.store.types.size
  slots : Locals first s slots.toList

theorem Amid.later (h : Amid first names slots s) (hs : Grown first names s s') :
    Amid first names slots s' :=
  ⟨hs.own h.own, Nat.le_trans h.le hs.size, h.slots.later hs⟩

theorem leads_primitiveNode (hs : Own first names s) (hle : first ≤ s.store.types.size)
    (p : Primitive) :
    Leads (Grown first names) (primitiveNode p) s fun t s' => Local first s'.store t := by
  refine runs_bind (runs_of_ok rfl ?_)
  split
  · next t ht => exact leads_pure (hs.shared p t ht)
  · have hnode : Owned first names s.store (.primitive p) :=
      ⟨trivial, by simp [TypeTable.parts], by simp⟩
    refine (leads_putType hnode hle).bind fun t s1 hs1 ht => ?_
    refine runs_bind (runs_of_ok rfl (runs_pure ⟨⟨Nat.le_refl _, fun h => ⟨h.node, ?_⟩⟩, ht⟩))
    exact forall_lookup_cons ht h.shared

/-- A reference leads to what was put in for the header. -/
theorem leads_reference (hs : Amid first names slots s) :
    Leads (Grown first names) (reference slots) s fun t s' => Local first s'.store t := by
  refine (leads_read Reader.signed).bind fun i s1 hs1 _ => ?_
  split
  · split
    · next t ht =>
      have hmem : t ∈ slots.toList := Array.mem_toList_iff.mpr (Array.mem_of_getElem? ht)
      exact leads_pure ((hs.slots t hmem).later hs1.size)
    · exact leads_fail
  · split
    · exact leads_primitiveNode (hs.later hs1).own (hs.later hs1).le _
    · exact leads_fail

/-! ### Nodes -/

/-- The keys increase, from above `last` on. -/
def Ascends {α κ : Type} [LT κ] (key : α → κ) (last : Option κ) (xs : List α) : Prop :=
  Increasing key xs ∧ ∀ x ∈ xs, ∀ k ∈ last, k < key x

theorem ascends_cons {α κ : Type} [LT κ] [LE κ] [DecidableLE κ] {key : α → κ} {last : Option κ}
    {x : α} {xs : List α} (hlt : ∀ a b : κ, ¬ a ≤ b → b < a)
    (htrans : ∀ a b c : κ, a < b → b < c → a < c) (hx : ¬ last.any (key x ≤ ·) = true)
    (hxs : Ascends key (some (key x)) xs) : Ascends key last (x :: xs) := by
  have hfirst : ∀ k ∈ last, k < key x := by
    intro k hk
    rw [Option.mem_def] at hk
    subst hk
    exact hlt _ _ (by simpa using hx)
  refine ⟨List.pairwise_cons.mpr ⟨fun y hy => hxs.2 y hy _ rfl, hxs.1⟩, ?_⟩
  rw [List.forall_mem_cons]
  exact ⟨hfirst, fun y hy k hk => htrans _ _ _ (hfirst k hk) (hxs.2 y hy _ rfl)⟩

theorem leads_fields : ∀ (count : Nat) (last : Option UInt32) {s : State},
    Amid first names slots s → Leads (Grown first names) (fields slots count last) s fun fs s' =>
      Ascends (·.label.id) last fs ∧ Locals first s' (fs.map (·.type))
  | 0, _, _, _ => leads_pure ⟨⟨.nil, by simp⟩, List.forall_mem_nil _⟩
  | count + 1, last, s, hs => by
    refine (leads_read Reader.unsigned).bind fun n s1 hs1 _ => ?_
    split
    · exact leads_fail
    dsimp only
    split
    · exact leads_fail
    next hnext =>
    refine (leads_reference (hs.later hs1)).bind fun t s2 hs2 ht => ?_
    have hs3 := (hs.later hs1).later hs2
    refine (leads_fields count (some (.ofNat n)) hs3).bind fun fs s3 hs3 ⟨hfs, htypes⟩ => leads_pure ?_
    refine ⟨ascends_cons (fun a b => UInt32.not_le.mp) (fun a b c => UInt32.lt_trans) hnext hfs, ?_⟩
    exact List.forall_mem_cons.mpr ⟨ht.later hs3.size, htypes⟩

theorem leads_methods : ∀ (count : Nat) (last : Option String) {s : State},
    Amid first names slots s → Leads (Grown first names) (methods slots count last) s fun ms s' =>
      Ascends Method.name last ms ∧ Locals first s' (ms.map (·.type))
  | 0, _, _, _ => leads_pure ⟨⟨.nil, by simp⟩, List.forall_mem_nil _⟩
  | count + 1, last, s, hs => by
    refine (leads_read Reader.text).bind fun name s1 hs1 _ => ?_
    split
    · exact leads_fail
    next hnext =>
    refine (leads_reference (hs.later hs1)).bind fun t s2 hs2 ht => ?_
    have hs3 := (hs.later hs1).later hs2
    refine (leads_methods count (some name) hs3).bind fun ms s3 hs3 ⟨hms, htypes⟩ => leads_pure ?_
    refine ⟨ascends_cons (fun a b => String.not_le.mp) (fun a b c => String.lt_trans) hnext hms, ?_⟩
    exact List.forall_mem_cons.mpr ⟨ht.later hs3.size, htypes⟩

/-- As many references as are counted. -/
theorem leads_references (hs : Amid first names slots s) (count : Nat) :
    Leads (Grown first names) (Action.replicate count (reference slots)) s fun types s' =>
      Locals first s' types := by
  have hall : Leads (Grown first names) (Action.replicate count (reference slots)) s fun types s' =>
      types.length = count ∧ Locals first s' types :=
    leads_replicate (P := fun s t => Local first s.store t)
      (fun s1 s2 t hs2 ht => ht.later hs2.size) fun s1 hs1 =>
      leads_reference (hs.later hs1)
  exact hall.mono fun types s' _ h => h.2

theorem leads_typeList (hs : Amid first names slots s) :
    Leads (Grown first names) (typeList slots) s fun types s' => Locals first s' types :=
  leads_count.bind fun count _ hs1 _ => leads_references (hs.later hs1) count

theorem leads_signature (hs : Amid first names slots s) :
    Leads (Grown first names) (signature slots) s fun f s' =>
      f.modes.length ≤ 1 ∧ Locals first s' (f.args ++ f.results) := by
  refine (leads_typeList hs).bind fun args s1 hs1 hargs => ?_
  refine (leads_typeList (hs.later hs1)).bind fun results s2 hs2 hresults => ?_
  refine (leads_read Reader.unsigned).bind fun count s3 hs3 _ => ?_
  split
  · exact leads_fail
  next hcount =>
  have hmode : ∀ s, Leads (Grown first names) mode s fun _ _ => True := by
    intro s
    refine (leads_read Reader.unsigned).bind fun n s1 _ _ => ?_
    split
    · exact leads_pure trivial
    · exact leads_fail
  have hmodes : Leads (Grown first names) (Action.replicate count mode) s3 fun modes _ =>
      modes.length = count :=
    (leads_replicate (P := fun _ _ => True) (fun _ _ _ _ => id) fun s _ => hmode s).mono
      fun _ _ _ h => h.1
  refine hmodes.bind fun modes s4 hs4 hlength => leads_pure ⟨hlength ▸ Nat.not_lt.mp hcount, ?_⟩
  have hlater := trans_of (Grown first names) hs3 hs4
  exact List.forall_mem_append.mpr ⟨hargs.later (trans_of _ hs2 hlater), hresults.later hlater⟩

/-- A node that is read is owned. -/
theorem leads_node (hs : Amid first names slots s) :
    Leads (Grown first names) (node slots) s fun n s' => Owned first names s'.store n := by
  refine (leads_read Reader.signed).bind fun i s1 hs1 _ => ?_
  have hs := hs.later hs1
  split
  · refine (leads_reference hs).bind fun t s2 _ ht => leads_pure ⟨trivial, ?_, by simp⟩
    simpa [TypeTable.parts] using ht
  · refine (leads_reference hs).bind fun t s2 _ ht => leads_pure ⟨trivial, ?_, by simp⟩
    simpa [TypeTable.parts] using ht
  · refine leads_count.bind fun count s2 hs2 _ => ?_
    exact (leads_fields count none (hs.later hs2)).bind fun fs s3 _ h => leads_pure ⟨h.1.1, h.2, by simp⟩
  · refine leads_count.bind fun count s2 hs2 _ => ?_
    exact (leads_fields count none (hs.later hs2)).bind fun fs s3 _ h => leads_pure ⟨h.1.1, h.2, by simp⟩
  · exact (leads_signature hs).bind fun f s2 _ h => leads_pure ⟨h.1, h.2, by simp⟩
  · refine leads_count.bind fun count s2 hs2 _ => ?_
    exact (leads_methods count none (hs.later hs2)).bind fun ms s3 _ h => leads_pure ⟨h.1.1, h.2, by simp⟩
  · exact leads_fail
  · exact leads_fail
  · split
    · exact (leads_read _).bind fun _ s2 _ _ => leads_pure ⟨trivial, by simp [TypeTable.parts], by simp⟩
    · exact leads_fail

theorem leads_entry (hs : Amid first names slots s) :
    Leads (Grown first names) (entry slots) s fun t s' => Local first s'.store t :=
  (leads_node hs).bind fun _ _ hs1 hn => leads_putType hn (hs.later hs1).le

/-! ### The whole header -/

theorem leads_putSlots : ∀ (count from' : Nat) {s : State}, from' + count ≤ names →
    first ≤ s.store.types.size → Leads (Grown first names) (putSlots from' count) s fun slots s' =>
      Locals first s' slots
  | 0, _, _, _, _ => leads_pure (List.forall_mem_nil _)
  | count + 1, k, s, hk, hle => by
    have hnode : Owned first names s.store (.var (slotName k)) :=
      ⟨trivial, by simp [TypeTable.parts], by rintro _ ⟨⟩; exact ⟨k, by omega, rfl⟩⟩
    refine (leads_putType hnode hle).bind fun t s1 hs1 ht => ?_
    have hrest := leads_putSlots count (k + 1) (by omega) (Nat.le_trans hle hs1.size)
    refine hrest.bind fun ts s2 hs2 hts => leads_pure ?_
    exact List.forall_mem_cons.mpr ⟨ht.later hs2.size, hts⟩

/-- What follows the number of slots in a header. -/
theorem leads_table (hs : Own first names s) (hle : first ≤ s.store.types.size) :
    Leads (Grown first names) (do
      let slots := (← putSlots 0 names).toArray
      let table ← Action.replicate names (entry slots)
      let args ← typeList slots
      return (⟨table, args, ⟨table.mapIdx fun i type => (slotName i, type)⟩⟩ : Header)) s fun header s' =>
      (Locals first s' header.args ∧ Locals first s' header.table) ∧
        ∀ k < names, ∃ t, header.env.find? (slotName k) = some t ∧ Local first s'.store t := by
  refine (leads_putSlots names 0 (by omega) hle).bind fun slots s1 hs1 hslots => ?_
  have hamid : Amid first names slots.toArray s1 := ⟨hs1.own hs, Nat.le_trans hle hs1.size, hslots⟩
  have htable : Leads (Grown first names) (Action.replicate names (entry slots.toArray)) s1
      fun table s' => table.length = names ∧ Locals first s' table :=
    leads_replicate (P := fun s t => Local first s.store t)
      (fun s1 s2 t hs2 ht => ht.later hs2.size) fun s2 hs2 =>
      leads_entry (hamid.later hs2)
  refine htable.bind fun table s2 hs2 ⟨hlength, htable⟩ => ?_
  refine (leads_typeList (hamid.later hs2)).bind fun args s3 hs3 hargs => leads_pure ?_
  refine ⟨⟨hargs, htable.later hs3⟩, fun k hk => ?_⟩
  have hmem : table[k]? = some table[k] := List.getElem?_eq_getElem (by omega)
  refine ⟨table[k], ?_, (htable _ (List.getElem_mem _)).later hs3.size⟩
  rw [Env.find?, lookup_mapIdx slotName fun _ _ => slotName_injective, hmem]

/-- The types of a header that is read are closed types of the store. -/
theorem parse_closed {bytes : List UInt8} {header : Header} {length : Nat}
    (h : parse bytes store = .ok (header, length) store') :
    ∃ own, Scope.Closed ⟨store', header.env⟩ own ∧
      (∀ t ∈ header.args, own t) ∧ ∀ t ∈ header.table, own t := by
  obtain ⟨rest, s', -, hbody, -, rfl⟩ := parse_eq_ok h
  obtain ⟨names, s1, hcount, hrest⟩ := bind_eq_ok.mp hbody
  have hbegun : Own store.types.size names ⟨⟨magic.length, some rest⟩, store, []⟩ := by
    refine ⟨fun i n hi hn => ?_, by simp⟩
    have hlt : i < store.types.size := (Array.getElem?_eq_some_iff.mp hn).1
    omega
  have hs1 : Grown store.types.size names ⟨⟨magic.length, some rest⟩, store, []⟩ s1 :=
    (leads_count.ok hcount).1
  obtain ⟨hs, htypes, hnames⟩ := (leads_table (hs1.own hbegun) hs1.size).ok hrest
  have hown := hs.own (hs1.own hbegun)
  refine ⟨Local store.types.size s'.store, fun t ht => ?_, htypes⟩
  have hlt : t.index < s'.store.types.size := ht.2
  have hget : s'.store.types[t.index]? = some s'.store.types[t.index] :=
    Array.getElem?_eq_getElem hlt
  have hnode := hown.node t.index _ ht.1 hget
  refine ⟨_, Store.typeAt_eq_ok.mpr hget, hnode.canonical, hnode.parts, fun name hvar => ?_⟩
  obtain ⟨k, hk, rfl⟩ := hnode.name name hvar
  exact hnames k hk

end Header

end TypedWire
