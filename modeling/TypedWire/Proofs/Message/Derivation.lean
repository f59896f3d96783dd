import TypedWire.Proofs.Message.Settling
import TypedWire.Proofs.Steady

/-! Whatever is read as a part of a header is a part of one: the bytes that a reader takes are a spelling
    of what it is made for. -/

namespace TypedWire

open TypedWire.Action

/-! ### What a run has taken -/

section Finds

variable {σ α β : Type} {reader : σ → Reader} {x : Action σ α} {f : α → Action σ β}
variable {taken : α → Language UInt8} {found : β → Language UInt8}

/-- A run that ends well has taken a string that its answer tells off the front of the bytes. -/
def Finds (reader : σ → Reader) (x : Action σ α) (found : α → Language UInt8) : Prop :=
  ∀ s offset unread, reader s = ⟨offset, some unread⟩ →
    Runs x s (fun a s' => ∃ front ∈ found a, ∃ rest, unread = front ++ rest ∧
      reader s' = ⟨offset + front.length, some rest⟩) fun _ _ => True

theorem finds_pure {b : β} (h : [] ∈ found b) : Finds reader (pure b) found :=
  fun _ _ unread hs => runs_pure ⟨[], h, unread, rfl, hs⟩

theorem finds_fail {e : Fault} : Finds reader (fail e) found := fun _ _ _ _ => runs_fail trivial

theorem Finds.mono {l : α → Language UInt8} (h : Finds reader x taken)
    (hl : ∀ a, ∀ bytes ∈ taken a, bytes ∈ l a) : Finds reader x l := by
  intro s offset unread hs
  refine (h s offset unread hs).post_mono ?_
  rintro a s1 ⟨front, hfront, rest⟩
  exact ⟨front, hl a front hfront, rest⟩

theorem Finds.bind (hx : Finds reader x taken)
    (hf : ∀ a, ∀ front ∈ taken a, Finds reader (f a) fun b => {more | front ++ more ∈ found b}) :
    Finds reader (x >>= f) found := by
  intro s offset unread hs
  refine runs_bind ((hx s offset unread hs).post_mono ?_)
  rintro a s1 ⟨front, hfront, rest, rfl, hs1⟩
  refine (hf a front hfront s1 _ rest hs1).post_mono ?_
  rintro b s2 ⟨more, hmore, rest', rfl, hs2⟩
  refine ⟨front ++ more, hmore, rest', (List.append_assoc _ _ _).symm, ?_⟩
  rw [hs2, List.length_append, Nat.add_assoc]

theorem Finds.map {l : Language UInt8} (hx : Finds reader x fun _ => l) (g : α → β) :
    Finds reader (do return g (← x)) fun _ => l := by
  refine hx.bind fun a front hfront => finds_pure ?_
  show front ++ [] ∈ l
  rwa [List.append_nil]

/-- As many strings as the run is repeated. -/
theorem finds_replicate {γ : Type} {item : γ → Language UInt8}
    (hx : Finds reader x fun _ => {bytes | ∃ c, bytes ∈ item c}) : ∀ count : Nat,
    Finds reader (replicate count x)
      fun _ => {bytes | ∃ cs : List γ, cs.length = count ∧ bytes ∈ (cs.map item).prod}
  | 0 => finds_pure ⟨[], rfl, rfl⟩
  | count + 1 => by
    rw [replicate_succ]
    refine hx.bind ?_
    rintro a front ⟨c, hfront⟩
    refine (finds_replicate hx count).bind ?_
    rintro as more ⟨cs, rfl, hmore⟩
    refine finds_pure ⟨c :: cs, rfl, ?_⟩
    rw [List.append_nil]
    exact mem_prod_cons.mpr ⟨front, hfront, more, hmore, rfl⟩

end Finds

namespace Reader

open TypedWire.Grammar (sized)

theorem finds_next {α : Type} {read : List UInt8 → Except Fault (α × Nat)} {found : α → Language UInt8}
    (h : ∀ bytes a n, read bytes = .ok (a, n) →
      ∃ front more, bytes = front ++ more ∧ n = front.length ∧ front ∈ found a) :
    Finds id (next read) found := by
  rintro _ offset unread rfl
  cases hread : read unread with
  | error e => exact runs_of_error (next_eq_error rfl hread) trivial
  | ok p =>
    obtain ⟨a, n⟩ := p
    obtain ⟨front, more, rfl, rfl, hfront⟩ := h unread a n hread
    refine runs_of_ok (next_eq_ok rfl hread) ⟨front, hfront, more, rfl, ?_⟩
    rw [List.drop_left]
    rfl

theorem finds_unsigned : Finds id unsigned Grammar.unsigned :=
  finds_next fun _ _ _ => Leb128.readUnsigned_eq_ok.mp

theorem finds_signed : Finds id signed Grammar.signed :=
  finds_next fun _ _ _ => Leb128.readSigned_eq_ok.mp

theorem finds_bytes (n : Nat) :
    Finds id (bytes n) fun taken => {front | front = taken ∧ taken.length = n} := by
  refine finds_next fun unread taken k h => ?_
  dsimp only at h
  split at h
  · next hlength =>
    rw [Except.ok.injEq, Prod.mk.injEq] at h
    obtain ⟨rfl, rfl⟩ := h
    exact ⟨_, unread.drop n, (List.take_append_drop n unread).symm, hlength.symm, rfl, hlength⟩
  · exact absurd h (by simp)

theorem finds_text : Finds id text fun name => sized (utf8 name) := by
  refine finds_unsigned.bind fun n front hfront => (finds_bytes n).bind ?_
  rintro taken _ ⟨rfl, rfl⟩
  split
  · next name hname =>
    obtain rfl := utf8?_eq_some hname
    refine finds_pure ⟨front, hfront, utf8 name, rfl, ?_⟩
    rw [List.append_nil]
  · exact finds_fail

theorem finds_skip : Finds id (do skip (← unsigned))
    fun _ => {bytes | ∃ payload, bytes ∈ sized payload} := by
  refine finds_unsigned.bind fun n front hfront => (finds_bytes n).bind ?_
  rintro payload _ ⟨rfl, rfl⟩
  refine finds_pure ⟨_, front, hfront, _, rfl, ?_⟩
  rw [List.append_nil]

end Reader

namespace Header

open TypedWire.Grammar (Entry Ref counted sized)

variable {α : Type} {found : α → Language UInt8} {slots : Array TypeId}

/-! ### Steps -/

theorem finds_read {x : Action Reader α} (hx : Finds id x found) :
    Finds State.reader (read x) found := by
  rintro ⟨_, store, shared⟩ offset unread rfl
  refine runs_lift (fun reader => ⟨reader, store, shared⟩) (fun a r h => ?_) (fun e r h => ?_)
    (hx _ offset unread rfl)
  · simp only [read, h]
  · simp only [read, h]

theorem finds_put (x : Action Store α) : Finds State.reader (put x) fun _ => 1 := by
  intro s offset unread hs
  refine runs_put ?_
  unfold Runs
  split
  · exact ⟨[], rfl, unread, rfl, hs⟩
  · trivial

theorem finds_count : Finds State.reader count Grammar.unsigned := by
  refine (finds_read Reader.finds_unsigned).bind fun n front hfront s offset unread hs => ?_
  refine runs_bind (runs_of_ok rfl ?_)
  split
  · exact runs_bind (runs_fail trivial)
  · refine finds_pure ?_ s offset unread hs
    show front ++ [] ∈ Grammar.unsigned n
    rwa [List.append_nil]

/-! ### References -/

theorem finds_primitiveNode (p : Primitive) : Finds State.reader (primitiveNode p) fun _ => 1 := by
  intro s offset unread hs
  refine runs_bind (runs_of_ok rfl ?_)
  split
  · exact finds_pure Language.nil_mem_one s offset unread hs
  · refine runs_bind ((finds_put _ s offset unread hs).post_mono ?_)
    rintro t s1 htaken
    exact runs_bind (runs_of_ok rfl (runs_pure htaken))

theorem finds_reference : Finds State.reader (reference slots)
    fun _ => {bytes | ∃ r : Ref, bytes ∈ r.spellings slots.size} := by
  refine (finds_read Reader.finds_signed).bind fun i front hfront => ?_
  split
  · next hi =>
    split
    · next t ht =>
      have hlt : i.toNat < slots.size := (Array.getElem?_eq_some_iff.mp ht).1
      refine finds_pure ⟨.slot i.toNat, hlt, ?_⟩
      rwa [List.append_nil, Int.toNat_of_nonneg hi]
    · exact finds_fail
  · split
    · next p hp =>
      obtain rfl : p.opcode = i := by simpa using List.find?_some hp
      refine (finds_primitiveNode p).mono ?_
      rintro t _ rfl
      refine ⟨.primitive p, ?_⟩
      rwa [List.append_nil]
    · exact finds_fail

/-- As many references as are counted. -/
theorem finds_typeList : Finds State.reader (typeList slots)
    fun _ => {bytes | ∃ refs, bytes ∈ counted (Ref.spellings slots.size) refs} := by
  refine finds_count.bind fun n front hfront => (finds_replicate finds_reference n).mono ?_
  rintro types more ⟨refs, rfl, hmore⟩
  exact ⟨refs, Language.append_mem_mul hfront hmore⟩

/-! ### Nodes -/

theorem finds_fields : ∀ (count : Nat) (last : Option UInt32),
    Finds State.reader (fields slots count last)
      fun _ => {bytes | ∃ fs : List (UInt32 × Ref), (Ascends Prod.fst last fs ∧ fs.length = count) ∧
        bytes ∈ (fs.map fun f => Grammar.unsigned f.1.toNat * f.2.spellings slots.size).prod}
  | 0, _ => finds_pure ⟨[], ⟨⟨.nil, by simp⟩, rfl⟩, rfl⟩
  | count + 1, last => by
    refine (finds_read Reader.finds_unsigned).bind fun n number hnumber => ?_
    split
    · exact finds_fail
    next hbig =>
    dsimp only
    split
    · exact finds_fail
    next hnext =>
    have hn : (UInt32.ofNat n).toNat = n := by
      rw [UInt32.toNat_ofNat', Nat.mod_eq_of_lt (Nat.not_le.mp hbig)]
    refine finds_reference.bind ?_
    rintro t content ⟨r, hcontent⟩
    refine (finds_fields count (some (.ofNat n))).bind ?_
    rintro gs more ⟨fs, ⟨hfs, rfl⟩, hmore⟩
    refine finds_pure ⟨(.ofNat n, r) :: fs, ⟨?_, rfl⟩, ?_⟩
    · exact ascends_cons (fun a b => UInt32.not_le.mp) (fun a b c => UInt32.lt_trans) hnext hfs
    · have hfield : number ++ content ∈
          Grammar.unsigned (UInt32.ofNat n).toNat * r.spellings slots.size :=
        Language.append_mem_mul (hn.symm ▸ hnumber) hcontent
      refine mem_prod_cons.mpr ⟨_, hfield, more, hmore, ?_⟩
      rw [List.append_nil, List.append_assoc]

theorem finds_methods : ∀ (count : Nat) (last : Option String),
    Finds State.reader (methods slots count last)
      fun _ => {bytes | ∃ ms : List (String × Ref), (Ascends Prod.fst last ms ∧ ms.length = count) ∧
        bytes ∈ (ms.map fun m => sized (utf8 m.1) * m.2.spellings slots.size).prod}
  | 0, _ => finds_pure ⟨[], ⟨⟨.nil, by simp⟩, rfl⟩, rfl⟩
  | count + 1, last => by
    refine (finds_read Reader.finds_text).bind fun name text htext => ?_
    split
    · exact finds_fail
    next hnext =>
    refine finds_reference.bind ?_
    rintro t content ⟨r, hcontent⟩
    refine (finds_methods count (some name)).bind ?_
    rintro ks more ⟨ms, ⟨hms, rfl⟩, hmore⟩
    refine finds_pure ⟨(name, r) :: ms, ⟨?_, rfl⟩, ?_⟩
    · exact ascends_cons (fun a b => String.not_le.mp) (fun a b c => String.lt_trans) hnext hms
    · have hmethod : text ++ content ∈ sized (utf8 name) * r.spellings slots.size :=
        Language.append_mem_mul htext hcontent
      refine mem_prod_cons.mpr ⟨_, hmethod, more, hmore, ?_⟩
      rw [List.append_nil, List.append_assoc]

theorem ofWire?_eq_some {n : Nat} {m : Mode} (h : Mode.ofWire? n = some m) : n = m.wire := by
  unfold Mode.ofWire? at h
  split at h <;> cases h <;> rfl

theorem finds_mode : Finds State.reader mode
    fun _ => {bytes | ∃ m : Mode, bytes ∈ Grammar.unsigned m.wire} := by
  refine (finds_read Reader.finds_unsigned).bind fun n front hfront => ?_
  split
  · next m hm =>
    refine finds_pure ⟨m, ?_⟩
    rw [List.append_nil]
    exact ofWire?_eq_some hm ▸ hfront
  · exact finds_fail

theorem finds_signature : Finds State.reader (signature slots) fun _ => {bytes |
    ∃ args results, ∃ mode : Option Mode, bytes ∈ counted (Ref.spellings slots.size) args *
      (counted (Ref.spellings slots.size) results *
        counted (fun m => Grammar.unsigned m.wire) mode.toList)} := by
  refine finds_typeList.bind ?_
  rintro _ front ⟨args, hargs⟩
  refine finds_typeList.bind ?_
  rintro _ middle ⟨results, hresults⟩
  refine (finds_read Reader.finds_unsigned).bind fun n number hnumber => ?_
  split
  · exact finds_fail
  next hn =>
  refine (finds_replicate finds_mode n).bind ?_
  rintro _ more ⟨modes, rfl, hmore⟩
  obtain ⟨mode, rfl⟩ : ∃ mode : Option Mode, mode.toList = modes := by
    rcases modes with _ | ⟨m, _ | ⟨m', modes⟩⟩
    · exact ⟨none, rfl⟩
    · exact ⟨some m, rfl⟩
    · simp at hn
  refine finds_pure ⟨args, results, mode, ?_⟩
  rw [List.append_nil]
  exact Language.append_mem_mul hargs (Language.append_mem_mul hresults
    (Language.append_mem_mul hnumber hmore))

/-- The members of a type, as many as are counted. -/
theorem finds_members {β γ : Type} {item : γ → Language UInt8} {P : List γ → Prop}
    {f : Nat → Action State (List β)} {make : List β → TypeNode}
    (hf : ∀ n, Finds State.reader (f n)
      fun _ => {bytes | ∃ cs : List γ, (P cs ∧ cs.length = n) ∧ bytes ∈ (cs.map item).prod}) :
    Finds State.reader (do return make (← f (← count)))
      fun _ => {bytes | ∃ cs, P cs ∧ bytes ∈ counted item cs} := by
  refine finds_count.bind fun n front hfront => ((hf n).map make).mono ?_
  rintro _ more ⟨cs, ⟨hcs, rfl⟩, hmore⟩
  exact ⟨cs, hcs, Language.append_mem_mul hfront hmore⟩

/-- The node of an entry. -/
theorem finds_node : Finds State.reader (node slots)
    fun _ => {bytes | ∃ e : Entry Ref, bytes ∈ e.spellings (Ref.spellings slots.size)} := by
  refine (finds_read Reader.finds_signed).bind fun i front hfront => ?_
  have hopcode : ∀ {k : Kind}, Kind.all.find? (·.opcode = i) = some k → k.opcode = i :=
    fun hk => by simpa using List.find?_some hk
  split
  · next hk =>
    obtain rfl := hopcode hk
    refine (finds_reference.map TypeNode.opt).mono ?_
    rintro _ more ⟨r, hmore⟩
    exact ⟨.opt r, Language.append_mem_mul hfront hmore⟩
  · next hk =>
    obtain rfl := hopcode hk
    refine (finds_reference.map TypeNode.vec).mono ?_
    rintro _ more ⟨r, hmore⟩
    exact ⟨.vec r, Language.append_mem_mul hfront hmore⟩
  · next hk =>
    obtain rfl := hopcode hk
    refine (finds_members fun n => finds_fields n none).mono ?_
    rintro _ more ⟨fs, hfs, hmore⟩
    exact ⟨.record fs, Language.append_mem_mul hfront ⟨hfs.1, hmore⟩⟩
  · next hk =>
    obtain rfl := hopcode hk
    refine (finds_members fun n => finds_fields n none).mono ?_
    rintro _ more ⟨fs, hfs, hmore⟩
    exact ⟨.variant fs, Language.append_mem_mul hfront ⟨hfs.1, hmore⟩⟩
  · next hk =>
    obtain rfl := hopcode hk
    refine (finds_signature.map TypeNode.func).mono ?_
    rintro _ more ⟨args, results, mode, hmore⟩
    exact ⟨.func args results mode, Language.append_mem_mul hfront hmore⟩
  · next hk =>
    obtain rfl := hopcode hk
    refine (finds_members fun n => finds_methods n none).mono ?_
    rintro _ more ⟨ms, hms, hmore⟩
    exact ⟨.service ms, Language.append_mem_mul hfront ⟨Grammar.increasing_utf8.mpr hms.1, hmore⟩⟩
  · exact finds_fail
  · exact finds_fail
  · split
    · next hlow =>
      refine ((finds_read Reader.finds_skip).map fun _ => TypeNode.primitive .reserved).mono ?_
      rintro _ more ⟨payload, hmore⟩
      exact ⟨.future i payload, hlow, Language.append_mem_mul hfront hmore⟩
    · exact finds_fail

theorem finds_entry : Finds State.reader (entry slots)
    fun _ => {bytes | ∃ e : Entry Ref, bytes ∈ e.spellings (Ref.spellings slots.size)} := by
  refine finds_node.bind ?_
  rintro n front ⟨e, hfront⟩
  refine (finds_put _).mono ?_
  rintro t _ rfl
  refine ⟨e, ?_⟩
  rwa [List.append_nil]

theorem finds_putSlots : ∀ (count first : Nat), Finds State.reader (putSlots first count)
    fun slots => {bytes | bytes = [] ∧ slots.length = count}
  | 0, _ => finds_pure ⟨rfl, rfl⟩
  | count + 1, first => by
    refine (finds_put _).bind ?_
    rintro t _ rfl
    refine (finds_putSlots count (first + 1)).bind ?_
    rintro ts _ ⟨rfl, rfl⟩
    exact finds_pure ⟨rfl, rfl⟩

/-! ### The whole header -/

theorem finds_body : Finds State.reader body fun _ => {bytes | ∃ table args,
    bytes ∈ counted (Entry.spellings (Ref.spellings table.length)) table *
      counted (Ref.spellings table.length) args} := by
  refine finds_count.bind fun n number hnumber => (finds_putSlots n 0).bind ?_
  rintro slots _ ⟨rfl, rfl⟩
  refine (finds_replicate finds_entry _).bind ?_
  rintro _ entries ⟨table, hlength, hentries⟩
  refine finds_typeList.bind ?_
  rintro _ more ⟨args, hmore⟩
  refine finds_pure ⟨table, args, ?_⟩
  rw [hlength, List.nil_append, List.append_nil, ← List.append_assoc]
  refine Language.append_mem_mul (Language.append_mem_mul ?_ hentries) hmore
  exact hlength.symm ▸ hnumber

end Header

end TypedWire
