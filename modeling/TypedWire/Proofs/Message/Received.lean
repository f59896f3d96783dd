import TypedWire.Proofs.Message.Header
import TypedWire.Proofs.Message.TypeTable

/-! Reading a whole header back: each type that is read for an argument unfolds, in the scope that the
    header brings, to the same tree as the type that the argument was added with. -/

namespace TypedWire.Header

open TypedWire.Action TypedWire.Reader TypedWire.TypeTable

variable {lengths : Nat → Prop} {w : Scope} {t : TypeTable} {base s s' : Store} {slots : Array TypeId}
variable {c u : TypeId} {code : TypeId → Int} {k i : Nat}

/-! ### Names of slots -/

theorem slotName_injective (h : slotName i = slotName k) : i = k := by
  have hrepr : i.repr = k.repr := by simpa [slotName, ToString.toString] using h
  have hdigits : Nat.toDigits 10 i = Nat.toDigits 10 k := by
    rw [← Nat.toList_repr, ← Nat.toList_repr, hrepr]
  rw [← Nat.ofDigitChars_ten_toDigits (n := i), hdigits, Nat.ofDigitChars_ten_toDigits]

theorem lookup_mapIdx {α κ : Type} [BEq κ] [LawfulBEq κ] : ∀ (name : Nat → κ) {xs : List α} {k : Nat},
    (∀ i j, name i = name j → i = j) → (xs.mapIdx fun i x => (name i, x)).lookup (name k) = xs[k]?
  | _, [], _, _ => by simp
  | name, x :: xs, 0, _ => by simp
  | name, x :: xs, k + 1, hname => by
    have hne : (name (k + 1) == name 0) = false := by
      rw [beq_eq_false_iff_ne]
      exact fun heq => absurd (hname _ _ heq) (by omega)
    rw [List.mapIdx_cons, List.lookup_cons, hne, List.getElem?_cons_succ]
    exact lookup_mapIdx (fun i => name (i + 1)) fun i j h => Nat.succ.inj (hname _ _ h)

/-- A name that is bound to a type that is no name stands for it. -/
theorem standsFor_var {v : Scope} {name : String} {h : TypeId} {n : TypeNode}
    (hu : v.store.typeAt u = .ok (.var name)) (hbound : v.env.find? name = some h)
    (hn : v.store.typeAt h = .ok n) (hvar : ∀ name, n ≠ .var name) : v.StandsFor u h n := by
  refine ⟨?_, hn⟩
  rw [Env.follow, Scope.followWithin_var hu hbound]
  cases hbindings : v.env.bindings with
  | nil => simp [Env.find?, hbindings] at hbound
  | cons b rest => exact Scope.followWithin_of_node v.env hn hvar _

theorem takes_putSlots : ∀ (count first : Nat) {base : Store},
    view.Takes lengths base (putSlots first count) [] fun s slots => slots.length = count ∧
      ∀ (i : Nat) u, slots[i]? = some u → s.typeAt u = .ok (.var (slotName (first + i)))
  | 0, first, base => View.takes_pure fun _ _ => by simp
  | count + 1, first, base => by
    refine (takes_put _).last fun u s hs hu => ?_
    refine (takes_putSlots count (first + 1)).last fun us s1 hs1 hus => ?_
    refine View.takes_pure fun s2 hs2 => ⟨by simp [hus.1], fun i v hv => ?_⟩
    cases i with
    | zero =>
      obtain rfl : u = v := by simpa using hv
      exact hs2.typeAt _ _ (hs1.typeAt _ _ hu)
    | succ i =>
      have hrest := hus.2 i v (by simpa using hv)
      rw [Nat.add_assoc, Nat.add_comm 1 i] at hrest
      exact hs2.typeAt _ _ hrest

/-! ### The table -/

/-- The node at `h` was read for slot `k`. -/
def ReadFor (w : Scope) (t : TypeTable) (slots : Array TypeId) (s : Store) (k : Nat) (h : TypeId) :
    Prop :=
  ∃ (a : TypeId) (n : TypeNode) (code : TypeId → Int) (m : TypeNode),
    t.registered[k]? = some a ∧ w.StandsFor a a n ∧ (∀ c ∈ parts n, t.Refers w c (code c)) ∧
    s.typeAt h = .ok m ∧ n.Alike (fun c u => Codes slots s (code c) u) m

theorem ReadFor.extends (hs : s.Extends s') {h : TypeId} (hr : ReadFor w t slots s k h) :
    ReadFor w t slots s' k h := by
  obtain ⟨a, n, code, m, ha, hn, hparts, hm, halike⟩ := hr
  exact ⟨a, n, code, m, ha, hn, hparts, hs.typeAt _ _ hm, halike.mono fun _ _ => Codes.extends hs⟩

theorem known_of_refers {code : Int} (hslots : slots.size = t.registered.size) (h : t.Refers w c code) :
    Known slots code := by
  rcases h with ⟨r, p, -, rfl⟩ | ⟨j, a, ha, -, rfl⟩
  · exact .inr ⟨p, rfl⟩
  · exact .inl ⟨j, rfl, hslots ▸ (Array.getElem?_eq_some_iff.mp ha).1⟩

theorem takes_entry (hsize : slots.size ≤ 2 ^ 63) (ht : t.Linked w)
    (hslots : slots.size = t.registered.size) (hw : t.Written w k)
    (h64 : (t.entries[k]?.getD []).length < 2 ^ 64) :
    view.Takes lengths base (entry slots) (t.entries[k]?.getD []) fun s h => ReadFor w t slots s k h := by
  obtain ⟨a, n, code, ha, hs, hn, hparts, hentry⟩ := hw
  obtain ⟨n', hs', hprim⟩ := ht.root k a ha
  obtain rfl := hs.node_eq hs'
  rw [hentry, Option.getD_some] at h64 ⊢
  have hknown : ∀ c ∈ parts n, Known slots (code c) :=
    fun c hc => known_of_refers hslots (hparts c hc)
  refine (takes_entryBytes hsize hn hprim hs.not_var hknown h64).last ?_
  intro m s1 hs1 hm
  refine (takes_put m).mono fun s2 h hs2 hh => ?_
  exact ⟨a, n, code, m, ha, hs, hparts, hh, hm.mono fun _ _ => Codes.extends hs2⟩

/-! ### The same trees -/

/-- What a header says of the types of a table. -/
structure Mirrors (w : Scope) (t : TypeTable) (slots : Array TypeId) (s : Store) (env : Env) : Prop where
  slot : ∀ (i : Nat) u, slots[i]? = some u → s.typeAt u = .ok (.var (slotName i))
  entry : ∀ (i : Nat) u, slots[i]? = some u →
    ∃ h, env.find? (slotName i) = some h ∧ ReadFor w t slots s i h

/-- A type and the type that is read for its number unfold to the same tree. -/
theorem Mirrors.sameTree {env : Env} (hm : Mirrors w t slots s env) {i : Int} (hc : t.Refers w c i)
    (hu : Codes slots s i u) : w.SameTree c ⟨s, env⟩ u := by
  refine ⟨fun c u => ∃ i, t.Refers w c i ∧ Codes slots s i u, fun c u hcu => ?_, i, hc, hu⟩
  obtain ⟨i, hc, hu⟩ := hcu
  rcases hc with ⟨r, p, hs, rfl⟩ | ⟨j, a, ha, halias, rfl⟩
  · rcases hu with ⟨j, hcode, -⟩ | ⟨q, hcode, hq⟩
    · have := opcode_neg p
      omega
    · obtain rfl : p = q := by
        have := congrArg Primitive.ofOpcode? hcode
        simpa only [ofOpcode?_opcode, Option.some.injEq] using this
      exact ⟨r, _, u, _, hs, .of_node hq (by simp), .primitive p⟩
  · rcases hu with ⟨j', hcode, hslot⟩ | ⟨q, hcode, -⟩
    · obtain rfl : j = j' := Int.ofNat.inj hcode
      obtain ⟨h, hbound, a', n, code, m, ha', hn, hparts, hmnode, halike⟩ := hm.entry j u hslot
      obtain rfl : a = a' := Option.some.inj (ha.symm.trans ha')
      obtain ⟨r, n', hs, halike'⟩ := halias.standsFor hn
      have hvar : ∀ name, m ≠ .var name := by
        cases halike <;> simp
      refine ⟨r, n', h, m, hs, standsFor_var (hm.slot j u hslot) hbound hmnode hvar, ?_⟩
      have hparts' : n.Alike (fun c u => t.Refers w c (code c) ∧ Codes slots s (code c) u) m :=
        halike.of_parts fun c hc u hcu => ⟨hparts c hc, hcu⟩
      exact (halike'.comp hparts').mono fun c u ⟨d, hcd, hd, hdu⟩ => ⟨code d, hd.alias hcd, hdu⟩
    · have := opcode_neg q
      omega

/-! ### The whole header -/

/-- What is written for the slots and the arguments of a table. -/
def bodyBytes (t : TypeTable) (code : TypeId → Int) : List UInt8 :=
  Leb128.encodeUnsigned t.entries.size ++
    (t.entries.toList.flatten ++ listBytes (refBytes code) t.args.toList)

theorem map_entries (t : TypeTable) :
    (List.range t.entries.size).map (fun k => t.entries[k]?.getD []) = t.entries.toList := by
  apply List.ext_getElem
  · simp
  · intro i hi hi'
    have hlt : i < t.entries.size := by simpa using hi'
    simp [hlt]

theorem entry_pos (hw : t.Written w k) : 0 < (t.entries[k]?.getD []).length := by
  obtain ⟨a, n, code, -, -, -, -, hentry⟩ := hw
  have := Leb128.encodeSigned_pos n.kind.opcode
  rw [hentry, Option.getD_some, TypeNode.entryBytes, List.length_append]
  omega

theorem takes_table (ht : t.Complete w) (hslots : slots.size = t.registered.size) (hsize : slots.size ≤ 2 ^ 63)
    (h64 : t.entries.toList.flatten.length < 2 ^ 64) :
    view.Takes lengths base (Action.replicate t.entries.size (entry slots)) t.entries.toList.flatten
      fun s => List.Forall₂ (ReadFor w t slots s) (List.range t.entries.size) := by
  have hentry : ∀ k ∈ List.range t.entries.size, view.Takes lengths base (entry slots)
      (t.entries[k]?.getD []) fun s => ReadFor w t slots s k := by
    intro k hk
    have hlength := length_le_item (fun k => t.entries[k]?.getD []) hk
    rw [map_entries] at hlength
    exact takes_entry hsize ht.toLinked hslots (ht.written k (List.mem_range.mp hk))
      (Nat.lt_of_le_of_lt hlength h64)
  have hall := View.takes_replicate (fun k => t.entries[k]?.getD [])
    (fun _ _ _ _ hs hr => hr.extends hs) (List.range t.entries.size) hentry
  rwa [map_entries, List.length_range] at hall

theorem takes_body (ht : t.Complete w)
    (hargs : ∀ c ∈ t.args.toList, t.Refers w c (code c)) (hlength : (bodyBytes t code).length < 2 ^ 63) :
    view.Takes lengths base body (bodyBytes t code) fun s header =>
      List.Forall₂ (fun c u => w.SameTree c ⟨s, header.env⟩ u) t.args.toList header.args := by
  rw [bodyBytes, List.length_append, List.length_append] at hlength
  have hcount : t.entries.size ≤ t.entries.toList.flatten.length := by
    have hpos : ∀ k ∈ List.range t.entries.size, 0 < (t.entries[k]?.getD []).length :=
      fun k hk => entry_pos (ht.written k (List.mem_range.mp hk))
    have hle := length_le_flatten (fun k => t.entries[k]?.getD []) hpos
    rwa [map_entries, List.length_range] at hle
  refine takes_count (Leb128.unsigned_encode (by omega)) (by rw [List.length_append]; omega) ?_
  refine (takes_putSlots t.entries.size 0).bind fun slots s hs hslots => ?_
  have hsize : slots.toArray.size = t.registered.size := by simp [hslots.1, ht.size]
  have hsmall : slots.toArray.size ≤ 2 ^ 63 := by
    rw [hsize, ← ht.size]
    omega
  refine (takes_table ht hsize hsmall (by omega)).bind fun table s1 hs1 htable => ?_
  have hknown : ∀ c ∈ t.args.toList, Known slots.toArray (code c) :=
    fun c hc => known_of_refers hsize (hargs c hc)
  refine (takes_refList hsmall hknown (by omega)).last ?_
  refine fun args s2 hs2 hargs2 => View.takes_pure fun s3 hs3 => ?_
  have hmirrors : Mirrors w t slots.toArray s3 ⟨table.mapIdx fun i type => (slotName i, type)⟩ := by
    refine ⟨fun i u hu => ?_, fun i u hu => ?_⟩
    · have hvar := hslots.2 i u (by simpa using hu)
      rw [Nat.zero_add] at hvar
      exact hs3.typeAt _ _ (hs2.typeAt _ _ (hs1.typeAt _ _ hvar))
    · have hi : i < t.entries.size := by
        have := (Array.getElem?_eq_some_iff.mp hu).1
        rwa [hsize, ← ht.size] at this
      obtain ⟨hlen, hread⟩ := List.forall₂_iff_get.mp htable
      rw [List.length_range] at hlen
      refine ⟨table[i], ?_, ?_⟩
      · rw [Env.find?, lookup_mapIdx slotName fun _ _ => slotName_injective, List.getElem?_eq_getElem]
      · have hi' := hread i (by simpa using hi) (by omega)
        simp only [List.get_eq_getElem, List.getElem_range] at hi'
        exact hi'.extends (hs2.trans hs3)
  refine ((List.forall₂_and_left _ _).mpr ⟨hargs, hargs2⟩).imp fun c u hcu => ?_
  exact hmirrors.sameTree hcu.1 (hcu.2.extends hs3)

/-- The header of a message whose types are in a complete table is read back, with a type for each
    argument that unfolds to the same tree. No byte string is put in. -/
theorem runs_parse (receiver : Store) (ht : t.Complete w)
    (hargs : ∀ c ∈ t.args.toList, t.Refers w c (code c)) (hlength : (bodyBytes t code).length < 2 ^ 63)
    (rest : List UInt8) :
    Runs (parse (magic ++ bodyBytes t code ++ rest)) receiver
      (fun (header, length) s => receiver.Extends s ∧
        receiver.Spends (magic ++ bodyBytes t code).length s ∧
        length = (magic ++ bodyBytes t code).length ∧
        List.Forall₂ (fun c u => w.SameTree c ⟨s, header.env⟩ u) t.args.toList header.args)
      fun e s => e = .storeFull ∧
        receiver.RunsOut (magic ++ bodyBytes t code).length (fun _ => False) s := by
  have hmore := (List.suffix_append magic (bodyBytes t code)).length_le
  rw [List.append_assoc]
  refine runs_parse_magic ((takes_body ht hargs hlength
    ⟨⟨magic.length, some (bodyBytes t code ++ rest)⟩, receiver, []⟩ magic.length rest
    (by simp [view]) (.refl _) rfl).mono ?_ fun e s ⟨he, hout⟩ => ⟨he, hout.mono hmore fun _ => id⟩)
  rintro header s ⟨-, hs, hspends, hnext, hall⟩
  refine ⟨hs, hspends.le hmore, ?_, hall⟩
  rw [List.length_append]
  exact congrArg Reader.offset hnext

end TypedWire.Header
