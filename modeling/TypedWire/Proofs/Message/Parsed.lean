import TypedWire.Proofs.Message.Derivation

/-! A string is read as a header if, and only if, the grammar has it. What is read says what the grammar
    says of the string, and leads from one type to another without an end nowhere: a handle is that of a
    node, or of the name of a slot whose type is one. -/

namespace TypedWire.Header

open TypedWire.Action
open TypedWire.Grammar (Entry Ref Preamble counted)

variable {lengths : Nat → Prop} {base s s' store store' : Store} {slots : Array TypeId} {bytes : List UInt8}
variable {header : Header} {t : TypeId} {n : Nat}

/-! ### Every string of the grammar is read -/

/-- The handle is the one that is kept for what is referred to. -/
def Kept (slots : Array TypeId) (s : Store) : Ref → TypeId → Prop
  | .slot i, t => slots[i]? = some t
  | .primitive p, t => s.typeAt t = .ok (.primitive p)

theorem Kept.extends (hs : s.Extends s') : ∀ {r : Ref}, Kept slots s r t → Kept slots s' r t
  | .slot _, h => h
  | .primitive _, h => hs.typeAt _ _ h

theorem legible_refs : Legible lengths slots (Ref.spellings slots.size) (Kept slots) where
  pos _ _ h := Ref.spellings_pos h
  later _ _ _ _ hs h := h.extends hs
  takes := by
    rintro base (i | p) bytes hbytes
    · refine (takes_slot (Array.getElem?_eq_getElem hbytes.1) hbytes.2).mono ?_
      rintro s _ - rfl
      exact Array.getElem?_eq_getElem hbytes.1
    · exact takes_primitive hbytes

theorem takes_spelledBody {p : Preamble}
    (hbytes : bytes ∈ counted (Entry.spellings (Ref.spellings p.table.length)) p.table *
      counted (Ref.spellings p.table.length) p.args) :
    view.Takes lengths base body bytes fun s header => p.Denotes header s := by
  obtain ⟨_, htable, final, hargs, rfl⟩ := Language.mem_mul.mp hbytes
  obtain ⟨number, hnumber, entries, hentries, rfl⟩ := Language.mem_mul.mp htable
  have hcount : p.table.length ≤ (entries ++ final).length := by
    have hle := length_le_prod (fun e _ _ => Entry.spellings_pos) hentries
    rw [List.length_append]
    omega
  rw [List.append_assoc]
  refine takes_count hnumber hcount ?_
  refine (takes_putSlots p.table.length 0).bind fun slots s hs ⟨hsize, hnames⟩ => ?_
  rw [← hsize] at hentries hargs
  have hentry : ∀ e ∈ p.table, ∀ front ∈ e.spellings (Ref.spellings slots.toArray.size),
      view.Takes lengths s (entry slots.toArray) front fun s t =>
        ∃ n, s.typeAt t = .ok n ∧ e.Denotes (Kept slots.toArray s) n :=
    fun e _ front hfront => takes_spelledEntry legible_refs hfront
  have hlater : ∀ (s s' : Store) (e : Entry Ref) (t : TypeId), s.Extends s' →
      (∃ n, s.typeAt t = .ok n ∧ e.Denotes (Kept slots.toArray s) n) →
      ∃ n, s'.typeAt t = .ok n ∧ e.Denotes (Kept slots.toArray s') n :=
    fun s s' e t hs ⟨n, hn, he⟩ => ⟨n, hs.typeAt t n hn, he.mono fun r t ht => ht.extends hs⟩
  refine (View.takes_items hlater p.table hentries hentry).bind fun table s1 hs1 htypes => ?_
  refine (takes_typeList legible_refs hargs).last fun args s2 hs2 hkept => ?_
  refine View.takes_pure fun s3 hs3 => ?_
  have hdenotes : ∀ (r : Ref) (t : TypeId), Kept slots.toArray s3 r t → Ref.Denotes s3 r t := by
    rintro (i | q) t ht
    · have hvar := hnames i t (by simpa [Kept] using ht)
      rw [Nat.zero_add] at hvar
      exact hs3.typeAt _ _ (hs2.typeAt _ _ (hs1.typeAt _ _ hvar))
    · exact ht
  refine ⟨htypes.imp fun e t het => ?_, hkept.imp fun r t ht => hdenotes r t (ht.extends hs3)⟩
  obtain ⟨n, hn, he⟩ := hlater _ _ e t (hs2.trans hs3) het
  exact ⟨n, hn, he.mono hdenotes⟩

/-- A spelling of a header is read, whatever follows it, and says what it means. Where nothing is charged
    there is room for it. -/
theorem runs_parse_spelled {p : Preamble} (hbytes : bytes ∈ p.spellings) (rest : List UInt8)
    (store : Store) :
    Runs (parse (bytes ++ rest)) store
      (fun (header, length) s => length = bytes.length ∧ p.Denotes header s)
      fun e _ => e = .storeFull ∧ store.limit ≠ none := by
  obtain ⟨_, rfl, front, hfront, rfl⟩ := Language.mem_mul.mp hbytes
  have hbody : view.Takes (fun _ => False) store body front fun s header => p.Denotes header s :=
    takes_spelledBody hfront
  have hrun := hbody ⟨⟨magic.length, some (front ++ rest)⟩, store, []⟩ magic.length rest
    (by simp [view]) (.refl _) rfl
  have hmagic : utf8 "DIDL" = magic := by decide
  rw [hmagic, List.append_assoc]
  refine runs_parse_magic (hrun.mono ?_ ?_)
  · rintro header s ⟨-, -, -, hnext, hdenotes⟩
    refine ⟨?_, hdenotes⟩
    rw [List.length_append]
    exact congrArg Reader.offset hnext
  · rintro e s ⟨he, hout⟩
    exact ⟨he, hout.limited⟩

/-! ### Nothing else is read -/

theorem parse_spelled (h : parse bytes store = .ok (header, n) store') :
    n ≤ bytes.length ∧ ∃ p : Preamble, bytes.take n ∈ p.spellings := by
  obtain ⟨rest, s, rfl, hbody, hlength, rfl⟩ := parse_eq_ok h
  obtain ⟨front, ⟨table, args, hfront⟩, rest, rfl, hreader⟩ := (finds_body _ _ _ rfl).ok hbody
  obtain rfl : magic.length + front.length = n := by rw [← hlength, hreader]
  rw [← List.append_assoc, ← List.length_append]
  refine ⟨(List.prefix_append _ _).length_le, ⟨table, args⟩, ?_⟩
  rw [List.take_left]
  have hmagic : magic = utf8 "DIDL" := by decide
  exact Language.append_mem_mul hmagic hfront

/-! ### Handles that can be met -/

/-- A handle that can be met in a header, and in the nodes and names that it leads to. -/
inductive Mentions (header : Header) (s : Store) : TypeId → Prop where
  | table {u : TypeId} (h : u ∈ header.table) : Mentions header s u
  | arg {u : TypeId} (h : u ∈ header.args) : Mentions header s u
  | bound {name : String} {u : TypeId} (h : header.env.find? name = some u) : Mentions header s u
  | part {u c : TypeId} {m : TypeNode} (h : Mentions header s u) (hm : s.typeAt u = .ok m)
      (hc : c ∈ TypeTable.parts m) : Mentions header s c

/-- What can be met in a header is live, and the name of a slot stands for the node of the slot. -/
theorem mentions_resolves (h : parse bytes store = .ok (header, n) s) (ht : header.Mentions s t) :
    (∃ k, s.typeAt t = .ok k) ∧
      ∃ r m, header.env.followWithin s 2 t = .ok r ∧ s.typeAt r = .ok m ∧ ∀ name, m ≠ .var name := by
  have hnamed := parse_named h
  obtain ⟨own, hclosed, hargs, htable⟩ := parse_closed h
  have hown : own t := by
    induction ht with
    | table ht => exact htable _ ht
    | arg ht => exact hargs _ ht
    | bound hbound =>
      obtain ⟨i, -, hi⟩ := hnamed.find?_iff.mp hbound
      exact htable _ (List.mem_of_getElem? hi)
    | part _ hn hc ih =>
      obtain ⟨m, hm, -, hparts, -⟩ := hclosed _ ih
      obtain rfl := Except.ok.inj (hn.symm.trans hm)
      exact hparts _ hc
  obtain ⟨m, hm, -, -, hname⟩ := hclosed t hown
  refine ⟨⟨m, hm⟩, ?_⟩
  by_cases hvar : ∃ name, m = .var name
  · obtain ⟨name, rfl⟩ := hvar
    obtain ⟨b, hb, -⟩ := hname name rfl
    obtain ⟨k, hk, hvar⟩ := hnamed.find? hb
    refine ⟨b, k, ?_, hk, hvar⟩
    exact (Scope.followWithin_var hm hb 1).trans (Scope.followWithin_of_node header.env hk hvar 0)
  · have hnode : ∀ name, m ≠ .var name := fun name h => hvar ⟨name, h⟩
    exact ⟨t, m, Scope.followWithin_of_node header.env hm hnode 1, hm, hnode⟩

/-! ### What is read is what the grammar has -/

/-- The bytes at the front are read as a header of this length if, and only if, they are a spelling of
    one and the store does not run out. Then the header says what they mean, its names are those of its
    slots, and what can be met in it is a node, or the name of a slot whose type is one. -/
theorem parse_grammar (bytes : List UInt8) (store : Store) :
    (∀ n, (∃ header s, parse bytes store = .ok (header, n) s) ↔
      n ≤ bytes.length ∧ (∃ p : Preamble, bytes.take n ∈ p.spellings) ∧
        (store.limit = none ∨ ∀ s, parse bytes store ≠ .error .storeFull s)) ∧
    ∀ header n s, parse bytes store = .ok (header, n) s →
      (∀ p : Preamble, bytes.take n ∈ p.spellings → p.Denotes header s) ∧
      (∀ name t, header.env.find? name = some t ↔
        ∃ i, name = slotName i ∧ header.table[i]? = some t) ∧
      ∀ t, header.Mentions s t → (∃ k, s.typeAt t = .ok k) ∧
        ∃ r m, header.env.followWithin s 2 t = .ok r ∧ s.typeAt r = .ok m ∧ ∀ name, m ≠ .var name := by
  have hrun : ∀ (n : Nat) (p : Preamble), n ≤ bytes.length → bytes.take n ∈ p.spellings →
      Runs (parse bytes) store (fun (header, length) s => length = n ∧ p.Denotes header s)
        fun e _ => e = .storeFull ∧ store.limit ≠ none := by
    intro n p hn hp
    have hspelled := runs_parse_spelled hp (bytes.drop n) store
    rwa [List.take_append_drop, List.length_take, Nat.min_eq_left hn] at hspelled
  refine ⟨fun n => ⟨?_, ?_⟩, fun header n s h => ⟨fun p hp => ?_, ?_, ?_⟩⟩
  · rintro ⟨header, s, h⟩
    obtain ⟨hn, hp⟩ := parse_spelled h
    exact ⟨hn, hp, .inr fun s' herror => absurd (h.symm.trans herror) (by simp)⟩
  · rintro ⟨hn, ⟨p, hp⟩, hroom⟩
    rcases (hrun n p hn hp).ends with ⟨⟨header, _⟩, s, h, rfl, -⟩ | ⟨_, s, h, rfl, hlimit⟩
    · exact ⟨header, s, h⟩
    · rcases hroom with hnone | hnever
      · exact absurd hnone hlimit
      · exact absurd h (hnever s)
  · exact ((hrun n p (parse_spelled h).1 hp).ok h).2
  · exact fun name t => (parse_named h).find?_iff
  · exact fun t => mentions_resolves h

/-- An option of itself, for which the numbers of slots and of the table are written longer than they
    need to be. -/
theorem padded_parsed : ∃ header s, parse
    [0x44, 0x49, 0x44, 0x4c, 0x81, 0x00, 0x6e, 0x80, 0x00, 0x01, 0x80, 0x80, 0x00] {} =
      .ok (header, 13) s := by
  refine ((parse_grammar _ {}).1 13).mpr ⟨by decide, ⟨⟨[.opt (.slot 0)], [.slot 0]⟩, ?_⟩, .inl rfl⟩
  have hentry : [0x6e, 0x80, 0x00] ∈ (Entry.opt (Ref.slot 0)).spellings (Ref.spellings 1) :=
    ⟨[0x6e], ⟨by decide, by decide, by decide, by simp⟩, [0x80, 0x00],
      ⟨by decide, by decide, by decide, by decide, by simp⟩, rfl⟩
  have harg : [0x80, 0x80, 0x00] ∈ (Ref.slot 0).spellings 1 :=
    ⟨by decide, by decide, by decide, by decide, by simp⟩
  have htable : [0x81, 0x00, 0x6e, 0x80, 0x00] ∈
      counted (Entry.spellings (Ref.spellings 1)) [Entry.opt (Ref.slot 0)] :=
    ⟨[0x81, 0x00], ⟨by decide, by decide, by decide⟩, _,
      mem_prod_cons.mpr ⟨_, hentry, [], rfl, rfl⟩, rfl⟩
  have hargs : [0x01, 0x80, 0x80, 0x00] ∈ counted (Ref.spellings 1) [Ref.slot 0] :=
    ⟨[0x01], ⟨by decide, by decide, by decide⟩, _, mem_prod_cons.mpr ⟨_, harg, [], rfl, rfl⟩, rfl⟩
  exact ⟨utf8 "DIDL", rfl, _, Language.append_mem_mul htable hargs, by decide⟩

end TypedWire.Header
