import TypedWire.Proofs.Message.Entry
import TypedWire.Proofs.Message.Grammar
import TypedWire.Proofs.Reading

/-! Whatever the grammar of headers has is read: each reader takes any spelling of what it is made for,
    and makes the nodes that are meant. That no more can be counted than there are bytes left is no
    hindrance, since each item has a byte at least. -/

namespace TypedWire

open TypedWire.Action

/-! ### Readers -/

namespace Reader

variable {bytes : List UInt8}

theorem reads_name {name : String} (h : bytes ∈ Grammar.sized (utf8 name)) :
    Reads text bytes name := by
  obtain ⟨front, hfront, _, rfl, rfl⟩ := Language.mem_mul.mp h
  exact reads_text hfront

theorem reads_skip {payload : List UInt8} (h : bytes ∈ Grammar.sized payload) :
    Reads (do skip (← unsigned)) bytes () := by
  obtain ⟨front, hfront, payload, rfl, rfl⟩ := Language.mem_mul.mp h
  exact (reads_unsigned hfront).bind ((reads_bytes payload).last (reads_pure ()))

end Reader

namespace Header

open TypedWire.Grammar (Entry Ref counted sized)

/-- A state of the header reader: what is kept for each type without parts is a node of it. -/
def view : View State where
  reader := State.reader
  store := State.store
  Fit s := ∀ p t, s.shared.lookup p = some t → s.store.typeAt t = .ok (.primitive p)

variable {lengths : Nat → Prop} {base : Store} {slots : Array TypeId} {α ρ : Type} {bytes more : List UInt8}
variable {post : Store → α → Prop}

/-! ### Steps -/

theorem takes_read {x : Action Reader α} {a : α} (hx : Reader.Reads x bytes a) :
    view.Takes lengths base (read x) bytes fun _ b => b = a := by
  intro s offset rest hfit _ hreader
  obtain ⟨reader, store, shared⟩ := s
  obtain rfl : reader = _ := hreader
  have hrun : read x ⟨⟨offset, some (bytes ++ rest)⟩, store, shared⟩ =
      .ok a ⟨⟨offset + bytes.length, some rest⟩, store, shared⟩ := by
    simp only [read, hx offset rest]
  exact runs_of_ok hrun ⟨hfit, .refl _, .refl _ _, rfl, rfl⟩

theorem runs_put {action : Action Store α} {s : State} {post : α → State → Prop}
    {lost : Fault → State → Prop}
    (hrun : Runs action s.store (fun a store => post a { s with store })
      fun e store => lost e { s with store }) : Runs (put action) s post lost :=
  runs_lift (fun store => { s with store })
    (fun a store h => by simp only [put, h]) (fun e store h => by simp only [put, h]) hrun

theorem takes_put (node : TypeNode) :
    view.Takes lengths base (put (Store.putType node)) [] fun s t => s.typeAt t = .ok node := by
  intro s offset rest hfit hbase hreader
  refine runs_put ((Store.runs_putType s.store node).mono ?_ ?_)
  · rintro t store ⟨hs, ht, -, -, hspends⟩
    exact ⟨fun p u hu => hs.typeAt u _ (hfit p u hu), hs, hspends, hreader, ht⟩
  · rintro e store ⟨rfl, rfl, hl⟩
    exact ⟨rfl, Store.runsOut_of_limit hl⟩

/-- A count is accepted if so many bytes follow. -/
theorem takes_count {front : List UInt8} {n : Nat} {f : Nat → Action State α}
    (hfront : front ∈ Grammar.unsigned n) (hle : n ≤ more.length)
    (hf : view.Takes lengths base (f n) more post) :
    view.Takes lengths base (count >>= f) (front ++ more) post := by
  intro s offset rest hfit hbase hreader
  obtain ⟨reader, store, shared⟩ := s
  obtain rfl : reader = _ := hreader
  rw [List.append_assoc]
  let s1 : State := ⟨⟨offset + front.length, some (more ++ rest)⟩, store, shared⟩
  have hread : read Reader.unsigned ⟨⟨offset, some (front ++ (more ++ rest))⟩, store, shared⟩ =
      .ok n s1 := by
    simp only [read, Reader.reads_unsigned hfront offset (more ++ rest), s1]
  have henough : ¬ s1.reader.remaining < n := by
    simp only [s1, Reader.remaining, Option.getD_some, List.length_append]
    omega
  have hcount : count ⟨⟨offset, some (front ++ (more ++ rest))⟩, store, shared⟩ = .ok n s1 := by
    simp only [count, bind_eq_ok, get_eq_ok]
    refine ⟨n, s1, hread, s1, s1, ⟨rfl, rfl⟩, ?_⟩
    rw [if_neg henough]
    rfl
  have hlength : more.length ≤ (front ++ more).length := (List.suffix_append front more).length_le
  refine runs_bind (runs_of_ok hcount ((hf s1 _ rest hfit hbase rfl).mono ?_ ?_))
  · rintro a s2 ⟨hfit2, hs2, hspends2, hreader2, ha⟩
    refine ⟨hfit2, hs2, hspends2.le hlength, ?_, ha⟩
    rw [hreader2, List.length_append, Nat.add_assoc]
  · rintro e s2 ⟨he, hout⟩
    exact ⟨he, hout.mono hlength fun _ => id⟩

/-- A list is read by what reads so many items. -/
theorem takes_counted {β : Type} {item : β → Language UInt8} {items : List β}
    {f : Nat → Action State α} (hitem : ∀ b, ∀ front ∈ item b, 0 < front.length)
    (hbytes : bytes ∈ counted item items)
    (hf : ∀ more ∈ (items.map item).prod, view.Takes lengths base (f items.length) more post) :
    view.Takes lengths base (count >>= f) bytes post := by
  obtain ⟨front, hfront, more, hmore, rfl⟩ := Language.mem_mul.mp hbytes
  exact takes_count hfront (length_le_prod (fun b _ => hitem b) hmore) (hf more hmore)

/-! ### References -/

theorem opcode_neg (p : Primitive) : p.opcode < 0 ∧ -24 ≤ p.opcode := by
  cases p with
  | fixed f => cases f <;> decide
  | _ => decide

theorem ofOpcode?_opcode (p : Primitive) : Primitive.ofOpcode? p.opcode = some p := by
  cases p with
  | fixed f => cases f <;> decide
  | _ => decide

theorem takes_primitiveNode (p : Primitive) :
    view.Takes lengths base (primitiveNode p) [] fun s t => s.typeAt t = .ok (.primitive p) := by
  intro s offset rest hfit hbase hreader
  refine runs_bind (runs_of_ok rfl ?_)
  split
  · next t ht => exact runs_pure ⟨hfit, .refl _, .refl _ _, hreader, hfit p t ht⟩
  · refine runs_bind ((takes_put (.primitive p) s offset rest hfit hbase hreader).post_mono ?_)
    rintro t s' ⟨hfit', hs, hspends, hreader', ht⟩
    refine runs_bind (runs_of_ok rfl (runs_pure ⟨?_, hs, hspends, hreader', ht⟩))
    exact forall_lookup_cons ht hfit'

theorem takes_slot {i : Nat} {t : TypeId} (ht : slots[i]? = some t) (h : bytes ∈ Grammar.signed i) :
    view.Takes lengths base (reference slots) bytes fun _ u => u = t := by
  refine (takes_read (Reader.reads_signed h)).last ?_
  rintro _ s - rfl
  rw [if_pos (Int.natCast_nonneg i), Int.toNat_natCast, ht]
  exact View.takes_pure fun _ _ => rfl

theorem takes_primitive {p : Primitive} (h : bytes ∈ Grammar.signed p.opcode) :
    view.Takes lengths base (reference slots) bytes fun s t => s.typeAt t = .ok (.primitive p) := by
  refine (takes_read (Reader.reads_signed h)).last ?_
  rintro _ s hs rfl
  rw [if_neg (Int.not_le.mpr (opcode_neg p).1), ofOpcode?_opcode]
  exact takes_primitiveNode p

/-- Each spelling of a reference is read, for a handle of what it refers to. -/
structure Legible (lengths : Nat → Prop) (slots : Array TypeId) (ref : ρ → Language UInt8)
    (R : Store → ρ → TypeId → Prop) : Prop where
  pos : ∀ c, ∀ bytes ∈ ref c, 0 < bytes.length
  later : ∀ s s' c h, s.Extends s' → R s c h → R s' c h
  takes : ∀ {base : Store} {c : ρ} {bytes : List UInt8}, bytes ∈ ref c →
    view.Takes lengths base (reference slots) bytes fun s => R s c

variable {ref : ρ → Language UInt8} {R : Store → ρ → TypeId → Prop}

theorem takes_typeList (hl : Legible lengths slots ref R)
    {types : List ρ} (hbytes : bytes ∈ counted ref types) :
    view.Takes lengths base (typeList slots) bytes fun s => List.Forall₂ (R s) types :=
  takes_counted hl.pos hbytes fun _ hmore =>
    View.takes_items hl.later types hmore fun _ _ _ hfront => hl.takes hfront

/-! ### Nodes -/

theorem takes_fields (hl : Legible lengths slots ref R) : ∀ {fs : List (UInt32 × ρ)} {base : Store}
    {bytes : List UInt8} (last : Option UInt32), Increasing Prod.fst fs →
    (∀ f ∈ fs, ∀ id ∈ last, id < f.1) →
    bytes ∈ (fs.map fun f => Grammar.unsigned f.1.toNat * ref f.2).prod →
    view.Takes lengths base (fields slots fs.length last) bytes
      fun s => List.Forall₂ (fun f g => g.label = .bare f.1 ∧ R s f.2 g.type) fs
  | [], _, _, _, _, _, rfl => View.takes_pure fun _ _ => .nil
  | (id, r) :: fs, base, _, last, hinc, hlast, hbytes => by
    obtain ⟨front, hfront, more, hmore, rfl⟩ := mem_prod_cons.mp hbytes
    obtain ⟨number, hnumber, content, hcontent, rfl⟩ := Language.mem_mul.mp hfront
    obtain ⟨hfirst, hrest⟩ := List.pairwise_cons.mp hinc
    have hid : id.toNat < 2 ^ 32 := id.toNat_lt
    rw [List.append_assoc, List.length_cons]
    refine (takes_read (Reader.reads_unsigned hnumber)).bind ?_
    rintro _ s hs rfl
    have hnext : ¬ (last.any fun id' => decide (UInt32.ofNat id.toNat ≤ id')) = true := by
      rw [UInt32.ofNat_toNat]
      cases last with
      | none => simp
      | some id' => simpa using hlast _ List.mem_cons_self id' rfl
    rw [if_neg (Nat.not_le.mpr hid), if_neg hnext, UInt32.ofNat_toNat]
    refine (hl.takes hcontent).bind fun t s1 hs1 ht => ?_
    have hlater : ∀ f ∈ fs, ∀ id' ∈ some id, id' < f.1 := by
      rintro f hf _ ⟨⟩
      exact hfirst f hf
    refine (takes_fields hl (some id) hrest hlater hmore).last fun gs s2 hs2 hgs => ?_
    exact View.takes_pure fun s3 hs3 => .cons ⟨rfl, hl.later _ _ _ _ (hs2.trans hs3) ht⟩
      (hgs.imp fun f g hfg => ⟨hfg.1, hl.later _ _ _ _ hs3 hfg.2⟩)

/-- The fields of a record or variant type, whatever is made of them. -/
theorem takes_fieldList (hl : Legible lengths slots ref R)
    {fs : List (UInt32 × ρ)} {make : List Field → TypeNode} {postN : Store → TypeNode → Prop}
    (hbytes : bytes ∈ Grammar.fieldList ref fs)
    (hpost : ∀ s gs, List.Forall₂ (fun f g => g.label = .bare f.1 ∧ R s f.2 g.type) fs gs →
      postN s (make gs)) :
    view.Takes lengths base (do return make (← fields slots (← count) none)) bytes postN := by
  refine takes_counted (fun f _ => Grammar.mul_pos fun _ => Grammar.unsigned_pos) hbytes.2 ?_
  intro more hmore
  refine (takes_fields hl none hbytes.1 (by simp) hmore).last fun gs s _ hgs => ?_
  refine View.takes_pure fun s' hs => hpost s' gs (hgs.imp fun f g hfg => ?_)
  exact ⟨hfg.1, hl.later _ _ _ _ hs hfg.2⟩

theorem takes_methods (hl : Legible lengths slots ref R) : ∀ {ms : List (String × ρ)} {base : Store}
    {bytes : List UInt8} (last : Option String), Increasing Prod.fst ms →
    (∀ m ∈ ms, ∀ name ∈ last, name < m.1) →
    bytes ∈ (ms.map fun m => sized (utf8 m.1) * ref m.2).prod →
    view.Takes lengths base (methods slots ms.length last) bytes
      fun s => List.Forall₂ (fun m k => k.name = m.1 ∧ R s m.2 k.type) ms
  | [], _, _, _, _, _, rfl => View.takes_pure fun _ _ => .nil
  | (name, r) :: ms, base, _, last, hinc, hlast, hbytes => by
    obtain ⟨front, hfront, more, hmore, rfl⟩ := mem_prod_cons.mp hbytes
    obtain ⟨text, htext, content, hcontent, rfl⟩ := Language.mem_mul.mp hfront
    obtain ⟨hfirst, hrest⟩ := List.pairwise_cons.mp hinc
    rw [List.append_assoc, List.length_cons]
    refine (takes_read (Reader.reads_name htext)).bind ?_
    rintro name s hs rfl
    have hnext : ¬ (last.any fun name' => decide (name ≤ name')) = true := by
      cases last with
      | none => simp
      | some name' => simpa using hlast _ List.mem_cons_self name' rfl
    rw [if_neg hnext]
    refine (hl.takes hcontent).bind fun t s1 hs1 ht => ?_
    have hlater : ∀ m ∈ ms, ∀ name' ∈ some name, name' < m.1 := by
      rintro m hm _ ⟨⟩
      exact hfirst m hm
    refine (takes_methods hl (some name) hrest hlater hmore).last fun ks s2 hs2 hks => ?_
    exact View.takes_pure fun s3 hs3 => .cons ⟨rfl, hl.later _ _ _ _ (hs2.trans hs3) ht⟩
      (hks.imp fun m k hmk => ⟨hmk.1, hl.later _ _ _ _ hs3 hmk.2⟩)

theorem takes_mode {m : Mode} (h : bytes ∈ Grammar.unsigned m.wire) :
    view.Takes lengths base mode bytes fun _ m' => m = m' := by
  refine (takes_read (Reader.reads_unsigned h)).last ?_
  rintro _ s - rfl
  cases m <;> exact View.takes_pure fun _ _ => rfl

theorem takes_signature (hl : Legible lengths slots ref R) {args results : List ρ} {mode : Option Mode}
    (hbytes : bytes ∈ counted ref args * (counted ref results *
      counted (fun m => Grammar.unsigned m.wire) mode.toList)) :
    view.Takes lengths base (signature slots) bytes fun s g =>
      List.Forall₂ (R s) args g.args ∧ List.Forall₂ (R s) results g.results ∧
        mode.toList = g.modes := by
  obtain ⟨front, hargs, _, hrest, rfl⟩ := Language.mem_mul.mp hbytes
  obtain ⟨middle, hresults, _, hmodes, rfl⟩ := Language.mem_mul.mp hrest
  obtain ⟨number, hnumber, more, hmore, rfl⟩ := Language.mem_mul.mp hmodes
  refine (takes_typeList hl hargs).bind fun args' s hs ha => ?_
  refine (takes_typeList hl hresults).bind fun results' s1 hs1 hr => ?_
  refine (takes_read (Reader.reads_unsigned hnumber)).bind ?_
  rintro _ s2 hs2 rfl
  have hlength : ¬ 1 < mode.toList.length := by cases mode <;> simp
  rw [if_neg hlength]
  have hmodes' : view.Takes lengths s2 (Action.replicate mode.toList.length Header.mode) more
      fun _ modes' => List.Forall₂ (· = ·) mode.toList modes' :=
    View.takes_items (R := fun _ m m' => m = m') (fun _ _ _ _ _ => id) mode.toList hmore
      fun m _ front hfront => takes_mode hfront
  refine hmodes'.last fun modes' s3 hs3 hm => View.takes_pure fun s4 hs4 => ?_
  have hgrown := hs2.trans (hs3.trans hs4)
  refine ⟨ha.imp fun _ _ => hl.later _ _ _ _ (hs1.trans hgrown),
    hr.imp fun _ _ => hl.later _ _ _ _ hgrown, ?_⟩
  exact List.forall₂_eq_eq_eq ▸ hm

theorem opcode_least (k : Kind) : -24 ≤ k.opcode := by
  cases k with
  | primitive p => exact (opcode_neg p).2
  | _ => decide

/-- No kind of node has the opcode of a type of the future. -/
theorem find?_future {opcode : Int} (h : opcode < -24) :
    Kind.all.find? (·.opcode = opcode) = none := by
  rw [List.find?_eq_none]
  intro k _ hk
  have hleast := opcode_least k
  have hopcode : k.opcode = opcode := by simpa using hk
  omega

/-- What comes after an opcode is read as the opcode tells. -/
theorem takes_opcode {i : Int} {l : Language UInt8} {f : Int → Action State α}
    (hbytes : bytes ∈ Grammar.signed i * l)
    (hf : ∀ more ∈ l, ∀ s : Store, view.Takes lengths s (f i) more post) :
    view.Takes lengths base (read Reader.signed >>= f) bytes post := by
  obtain ⟨front, hfront, more, hmore, rfl⟩ := Language.mem_mul.mp hbytes
  refine (takes_read (Reader.reads_signed hfront)).bind ?_
  rintro _ s hs rfl
  exact hf more hmore s

/-- A spelling of an entry is read as the node that it stands for. -/
theorem takes_node (hl : Legible lengths slots ref R) {e : Entry ρ}
    (hbytes : bytes ∈ e.spellings ref) :
    view.Takes lengths base (node slots) bytes fun s n => e.Denotes (R s) n := by
  cases e with
  | opt r =>
    refine takes_opcode hbytes fun more hmore s => ?_
    refine (hl.takes hmore).last fun t s1 _ ht => ?_
    exact View.takes_pure fun s2 hs2 => .opt (hl.later _ _ _ _ hs2 ht)
  | vec r =>
    refine takes_opcode hbytes fun more hmore s => ?_
    refine (hl.takes hmore).last fun t s1 _ ht => ?_
    exact View.takes_pure fun s2 hs2 => .vec (hl.later _ _ _ _ hs2 ht)
  | record fs =>
    refine takes_opcode hbytes fun more hmore s => ?_
    exact takes_fieldList hl hmore fun _ _ => .record
  | variant fs =>
    refine takes_opcode hbytes fun more hmore s => ?_
    exact takes_fieldList hl hmore fun _ _ => .variant
  | func args results mode =>
    refine takes_opcode hbytes fun more hmore s => ?_
    refine (takes_signature hl hmore).last fun g s1 _ ⟨ha, hr, hm⟩ => ?_
    obtain ⟨args', results', _⟩ := g
    subst hm
    exact View.takes_pure fun s2 hs2 => .func (ha.imp fun _ _ => hl.later _ _ _ _ hs2)
      (hr.imp fun _ _ => hl.later _ _ _ _ hs2)
  | service ms =>
    refine takes_opcode hbytes fun more hmore s => ?_
    refine takes_counted (fun m _ => ?_) hmore.2 fun more hmore' => ?_
    · exact Grammar.mul_pos fun _ => Grammar.mul_pos fun _ => Grammar.unsigned_pos
    have hinc := Grammar.increasing_utf8.mp hmore.1
    refine (takes_methods hl none hinc (by simp) hmore').last fun ks s1 _ hks => ?_
    exact View.takes_pure fun s2 hs2 =>
      .service (hks.imp fun _ _ hmk => ⟨hmk.1, hl.later _ _ _ _ hs2 hmk.2⟩)
  | future opcode payload =>
    obtain ⟨hlow, hbytes⟩ := hbytes
    refine takes_opcode hbytes fun more hmore s => ?_
    rw [find?_future hlow]
    dsimp only
    rw [if_pos (show opcode < Primitive.principal.opcode from hlow)]
    exact (takes_read (Reader.reads_skip hmore)).last fun _ _ _ _ => View.takes_pure fun _ _ => .future

/-- A spelling of an entry is read as a type that the entry stands for. -/
theorem takes_spelledEntry (hl : Legible lengths slots ref R) {e : Entry ρ}
    (hbytes : bytes ∈ e.spellings ref) :
    view.Takes lengths base (entry slots) bytes fun s t =>
      ∃ n, s.typeAt t = .ok n ∧ e.Denotes (R s) n := by
  refine (takes_node hl hbytes).last fun n s hs hn => ?_
  refine (takes_put n).mono fun s' t hs' ht => ⟨n, ht, ?_⟩
  exact hn.mono fun r h => hl.later _ _ r h hs'

/-! ### The magic bytes -/

theorem ofBytes_magic (rest : List UInt8) :
    Reader.ofBytes (magic ++ rest) magic.length = ⟨magic.length, some rest⟩ := by
  rw [Reader.ofBytes, if_pos (List.prefix_append magic rest).length_le, List.drop_left]

/-- What follows the magic bytes makes the header. -/
theorem runs_parse_magic {rest : List UInt8} {store : Store} {postP : Header × Nat → Store → Prop}
    {lost : Fault → Store → Prop} (h : Runs body ⟨⟨magic.length, some rest⟩, store, []⟩
      (fun header s => postP (header, s.reader.offset) s.store) fun e s => lost e s.store) :
    Runs (parse (magic ++ rest)) store postP lost := by
  have hlong : ¬ (magic ++ rest).length < magic.length :=
    Nat.not_lt.mpr (List.prefix_append magic rest).length_le
  have hmagic : ¬ (magic ++ rest).take magic.length ≠ magic := not_not.mpr List.take_left
  rcases h.ends with ⟨header, s, hrun, hpost⟩ | ⟨e, s, hrun, hlost⟩
  · have hparse : parse (magic ++ rest) store = .ok (header, s.reader.offset) s.store := by
      simp only [parse, if_neg hlong, if_neg hmagic, ofBytes_magic, hrun]
    exact runs_of_ok hparse hpost
  · have hparse : parse (magic ++ rest) store = .error e s.store := by
      simp only [parse, if_neg hlong, if_neg hmagic, ofBytes_magic, hrun]
    exact runs_of_error hparse hlost

/-- A header is read after the magic bytes only. -/
theorem parse_eq_ok {store store' : Store} {header : Header} {length : Nat}
    (h : parse bytes store = .ok (header, length) store') :
    ∃ rest s, bytes = magic ++ rest ∧ body ⟨⟨magic.length, some rest⟩, store, []⟩ = .ok header s ∧
      s.reader.offset = length ∧ s.store = store' := by
  unfold parse at h
  split at h
  · exact absurd h (by simp)
  split at h
  · exact absurd h (by simp)
  next htake =>
  have hmagic : bytes = magic ++ bytes.drop magic.length := by
    conv_lhs => rw [← List.take_append_drop magic.length bytes, not_not.mp htake]
  rw [hmagic, ofBytes_magic] at h
  split at h
  · next header' s hbody =>
    rw [EStateM.Result.ok.injEq, Prod.mk.injEq] at h
    obtain ⟨⟨rfl, hlength⟩, hstore⟩ := h
    exact ⟨_, s, hmagic, hbody, hlength, hstore⟩
  · exact absurd h (by simp)

end Header

end TypedWire
