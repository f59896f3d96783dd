import TypedWire.Proofs.Message.Recognition

/-! Reading a table entry back: what is written for a node is a spelling of it, so the node that is made
    is like the node that was written, a part standing for the slot or the type without parts that its
    number says. -/

namespace TypedWire

open TypedWire.Grammar (Entry counted)

section Spelled

variable {α : Type} {item : α → Language UInt8} {code : TypeId → Int} {ref : TypeId → Language UInt8}

/-- A list that is written after its length is spelled if its items are. -/
theorem listBytes_mem {spell : α → List UInt8} {items : List α} (h : ∀ a ∈ items, spell a ∈ item a)
    (hitem : ∀ a ∈ items, 0 < (spell a).length) (h64 : (listBytes spell items).length < 2 ^ 64) :
    listBytes spell items ∈ counted item items := by
  have hle := length_le_flatten spell hitem
  rw [listBytes, List.length_append] at h64
  exact Language.append_mem_mul (Leb128.unsigned_encode (by omega)) (flatten_mem_prod h)

theorem refBytes_pos (c : TypeId) : 0 < (refBytes code c).length := Leb128.encodeSigned_pos (code c)

theorem fields_mem {fs : List Field} (hknown : ∀ f ∈ fs, refBytes code f.type ∈ ref f.type)
    (hinc : Increasing (·.label.id) fs) (h64 : (listBytes (Field.entryBytes code) fs).length < 2 ^ 64) :
    listBytes (Field.entryBytes code) fs ∈
      Grammar.fieldList ref (fs.map fun f => (f.label.id, f.type)) := by
  refine ⟨List.pairwise_map.mpr hinc, ?_⟩
  rw [counted, List.length_map, List.map_map]
  refine listBytes_mem (fun f hf => ?_) (fun f _ => ?_) h64
  · have hid : f.label.id.toNat < 2 ^ 32 := f.label.id.toNat_lt
    exact Language.append_mem_mul (Leb128.unsigned_encode (by omega)) (hknown f hf)
  · have := Leb128.encodeUnsigned_pos f.label.id.toNat
    rw [Field.entryBytes, List.length_append]
    omega

theorem methods_mem {ms : List Method} (hknown : ∀ m ∈ ms, refBytes code m.type ∈ ref m.type)
    (hinc : Increasing Method.name ms) (h64 : (listBytes (Method.entryBytes code) ms).length < 2 ^ 64) :
    listBytes (Method.entryBytes code) ms ∈
      Grammar.methodList ref (ms.map fun m => (m.name, m.type)) := by
  refine ⟨Grammar.increasing_utf8.mpr (List.pairwise_map.mpr hinc), ?_⟩
  rw [counted, List.length_map, List.map_map]
  refine listBytes_mem (fun m hm => ?_) (fun m _ => ?_) h64
  · have hle := length_le_item (Method.entryBytes code) hm
    rw [listBytes, List.length_append] at h64
    simp only [Method.entryBytes, List.length_append] at hle
    refine Language.append_mem_mul (Language.append_mem_mul ?_ rfl) (hknown m hm)
    exact Leb128.unsigned_encode (by omega)
  · have := Leb128.encodeUnsigned_pos (utf8 m.name).length
    simp only [Method.entryBytes, List.length_append]
    omega

theorem signature_mem {f : Signature} (hargs : ∀ c ∈ f.args, refBytes code c ∈ ref c)
    (hresults : ∀ c ∈ f.results, refBytes code c ∈ ref c) (hmodes : f.modes.length ≤ 1)
    (h64 : (f.entryBytes code).length < 2 ^ 64) :
    f.modes.head?.toList = f.modes ∧ f.entryBytes code ∈ counted ref f.args * (counted ref f.results *
      counted (fun m => Grammar.unsigned m.wire) f.modes.head?.toList) := by
  have hmode : f.modes.head?.toList = f.modes := by
    rcases hlist : f.modes with _ | ⟨m, _ | ⟨m', ms⟩⟩
    · rfl
    · rfl
    · rw [hlist] at hmodes
      simp at hmodes
  refine ⟨hmode, ?_⟩
  simp only [Signature.entryBytes, List.length_append] at h64
  rw [hmode, Signature.entryBytes, List.append_assoc]
  refine Language.append_mem_mul (listBytes_mem hargs (fun c _ => refBytes_pos c) (by omega)) ?_
  refine Language.append_mem_mul (listBytes_mem hresults (fun c _ => refBytes_pos c) (by omega)) ?_
  refine listBytes_mem (fun m _ => ?_) (fun m _ => Leb128.encodeUnsigned_pos m.wire) (by omega)
  exact Leb128.unsigned_encode (by cases m <;> decide)

/-- What is written for a node is the spelling of an entry that stands for nodes like it. -/
theorem exists_entry {n : TypeNode} (hn : n.Canonical) (hprim : n.kind.isPrimitive = false)
    (hvar : ∀ name, n ≠ .var name) (hknown : ∀ c ∈ TypeTable.parts n, refBytes code c ∈ ref c)
    (h64 : (n.entryBytes code).length < 2 ^ 64) :
    ∃ e : Entry TypeId, n.entryBytes code ∈ e.spellings ref ∧
      ∀ R m, e.Denotes R m → n.Alike R m := by
  rw [TypeNode.entryBytes, List.length_append] at h64
  have hopcode : ∀ (k : Kind) {l : Language UInt8} {bytes : List UInt8}, Leb128.IsInt64 k.opcode →
      bytes ∈ l → Leb128.encodeSigned k.opcode ++ bytes ∈ Grammar.signed k.opcode * l :=
    fun k _ _ hk hbytes => Language.append_mem_mul (Leb128.signed_encode hk) hbytes
  cases n with
  | opt inner =>
    refine ⟨.opt inner, hopcode .opt (by decide) (hknown inner (by simp [TypeTable.parts])), ?_⟩
    intro R m hm
    cases hm with
    | opt h => exact .opt h
  | vec element =>
    refine ⟨.vec element, hopcode .vec (by decide) (hknown element (by simp [TypeTable.parts])), ?_⟩
    intro R m hm
    cases hm with
    | vec h => exact .vec h
  | record fs =>
    have hfields := fields_mem (fun f hf => hknown _ (List.mem_map_of_mem hf)) hn
      (Nat.lt_of_le_of_lt (Nat.le_add_left _ _) h64)
    refine ⟨.record _, hopcode .record (by decide) hfields, ?_⟩
    intro R m hm
    cases hm with
    | record h =>
      rw [List.forall₂_map_left_iff] at h
      exact .record (h.imp fun f g hfg => ⟨by rw [hfg.1]; rfl, hfg.2⟩)
  | variant fs =>
    have hfields := fields_mem (fun f hf => hknown _ (List.mem_map_of_mem hf)) hn
      (Nat.lt_of_le_of_lt (Nat.le_add_left _ _) h64)
    refine ⟨.variant _, hopcode .variant (by decide) hfields, ?_⟩
    intro R m hm
    cases hm with
    | variant h =>
      rw [List.forall₂_map_left_iff] at h
      exact .variant (h.imp fun f g hfg => ⟨by rw [hfg.1]; rfl, hfg.2⟩)
  | func f =>
    obtain ⟨hmode, hsignature⟩ := signature_mem (fun c hc => hknown c (List.mem_append_left _ hc))
      (fun c hc => hknown c (List.mem_append_right _ hc)) hn
      (Nat.lt_of_le_of_lt (Nat.le_add_left _ _) h64)
    refine ⟨.func _ _ _, hopcode .func (by decide) hsignature, ?_⟩
    intro R m hm
    cases hm with
    | func ha hr => exact .func ha hr hmode.symm
  | service ms =>
    have hmethods := methods_mem (fun m hm => hknown _ (List.mem_map_of_mem hm)) hn
      (Nat.lt_of_le_of_lt (Nat.le_add_left _ _) h64)
    refine ⟨.service _, hopcode .service (by decide) hmethods, ?_⟩
    intro R m hm
    cases hm with
    | service h =>
      rw [List.forall₂_map_left_iff] at h
      exact .service (h.imp fun m k hmk => ⟨hmk.1.symm, hmk.2⟩)
  | primitive p => exact absurd hprim (by simp [TypeNode.kind, Kind.isPrimitive])
  | var name => exact absurd rfl (hvar name)

end Spelled

namespace Header

open TypedWire.Action

/-- The type that is read for a number. -/
def Codes (slots : Array TypeId) (s : Store) (code : Int) (h : TypeId) : Prop :=
  (∃ j : Nat, code = j ∧ slots[j]? = some h) ∨ ∃ p, code = p.opcode ∧ s.typeAt h = .ok (.primitive p)

/-- The number is that of a slot or of a type without parts. -/
def Known (slots : Array TypeId) (code : Int) : Prop :=
  (∃ j : Nat, code = j ∧ j < slots.size) ∨ ∃ p : Primitive, code = p.opcode

variable {lengths : Nat → Prop} {base s s' : Store} {slots : Array TypeId} {code : TypeId → Int} {i : Int}
variable {h : TypeId}

theorem Codes.extends (hs : s.Extends s') (hc : Codes slots s i h) : Codes slots s' i h := by
  rcases hc with hslot | ⟨p, hcode, hp⟩
  · exact .inl hslot
  · exact .inr ⟨p, hcode, hs.typeAt _ _ hp⟩

theorem Known.isInt64 (hslots : slots.size ≤ 2 ^ 63) (hi : Known slots i) : Leb128.IsInt64 i := by
  unfold Leb128.IsInt64
  rcases hi with ⟨j, rfl, hj⟩ | ⟨p, rfl⟩
  · omega
  · have := opcode_neg p
    omega

/-- The spellings of known numbers. -/
def codes (slots : Array TypeId) (code : TypeId → Int) (c : TypeId) : Language UInt8 :=
  {bytes | Known slots (code c) ∧ bytes ∈ Grammar.signed (code c)}

theorem refBytes_mem (hslots : slots.size ≤ 2 ^ 63) {c : TypeId} (hc : Known slots (code c)) :
    refBytes code c ∈ codes slots code c :=
  ⟨hc, Leb128.signed_encode (hc.isInt64 hslots)⟩

theorem legible_codes : Legible lengths slots (codes slots code) fun s c h => Codes slots s (code c) h where
  pos _ _ h := Grammar.signed_pos h.2
  later _ _ _ _ hs h := h.extends hs
  takes := by
    rintro base c bytes ⟨⟨j, hcode, hj⟩ | ⟨p, hcode⟩, hbytes⟩
    · rw [hcode] at hbytes
      refine (takes_slot (Array.getElem?_eq_getElem hj) hbytes).mono ?_
      rintro s _ - rfl
      exact .inl ⟨j, hcode, Array.getElem?_eq_getElem hj⟩
    · rw [hcode] at hbytes
      exact (takes_primitive hbytes).mono fun s t _ ht => .inr ⟨p, hcode, ht⟩

theorem takes_refList (hslots : slots.size ≤ 2 ^ 63)
    {types : List TypeId} (hknown : ∀ c ∈ types, Known slots (code c))
    (h64 : (listBytes (refBytes code) types).length < 2 ^ 64) :
    view.Takes lengths base (typeList slots) (listBytes (refBytes code) types)
      fun s => List.Forall₂ (fun c h => Codes slots s (code c) h) types :=
  takes_typeList legible_codes
    (listBytes_mem (fun c hc => refBytes_mem hslots (hknown c hc)) (fun c _ => refBytes_pos c) h64)

/-- What was written for a node is read back as a node that is like it. -/
theorem takes_entryBytes (hslots : slots.size ≤ 2 ^ 63)
    {n : TypeNode} (hn : n.Canonical) (hprim : n.kind.isPrimitive = false) (hvar : ∀ name, n ≠ .var name)
    (hknown : ∀ c ∈ TypeTable.parts n, Known slots (code c))
    (h64 : (n.entryBytes code).length < 2 ^ 64) :
    view.Takes lengths base (node slots) (n.entryBytes code) fun s m =>
      n.Alike (fun c h => Codes slots s (code c) h) m := by
  have href : ∀ c ∈ TypeTable.parts n, refBytes code c ∈ codes slots code c :=
    fun c hc => refBytes_mem hslots (hknown c hc)
  obtain ⟨e, he, halike⟩ := exists_entry hn hprim hvar href h64
  exact (takes_node legible_codes he).mono fun s m _ => halike _ m

end Header

end TypedWire
