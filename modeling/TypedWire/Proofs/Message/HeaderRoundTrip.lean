import TypedWire.Message.Draft
import TypedWire.Proofs.Message.Received
import TypedWire.Proofs.Message.Register

/-! A header is read back: whatever types were added to a table, one after another, the header that is
    written for the table is accepted, and brings a type for each of them that unfolds to the same
    tree. That it can be written at all is shown first: whatever has been registered has a number. -/

namespace TypedWire

open TypedWire.Action

/-- Where each member has an answer, all of them have. -/
theorem Except.mapM_of_forall {α β : Type} {f : α → Except Fault β} : ∀ {as : List α},
    (∀ a ∈ as, ∃ b, f a = .ok b) → ∃ bs, as.mapM f = .ok bs
  | [], _ => ⟨[], List.mapM_nil⟩
  | a :: as, h => by
    obtain ⟨b, hb⟩ := h a List.mem_cons_self
    obtain ⟨bs, hbs⟩ := Except.mapM_of_forall fun c hc => h c (List.mem_cons_of_mem a hc)
    refine ⟨b :: bs, ?_⟩
    simp only [List.mapM_cons, Except.bind_eq_ok, Except.pure_eq_ok]
    exact ⟨b, hb, bs, hbs, rfl⟩

namespace TypeTable

variable {w w' : Scope} {t t' : TypeTable} {c : TypeId} {types : List TypeId}

/-! ### What can be written -/

/-- There is a number for the type: it stands for a type without parts, or a slot is noted for it. -/
def Numbered (w : Scope) (t : TypeTable) (c : TypeId) : Prop :=
  (∃ r p, w.StandsFor c r (.primitive p)) ∨ ∃ slot, (c, slot) ∈ t.slots

theorem Numbered.later (hs : t.slots <:+ t'.slots) (h : t.Numbered w c) : t'.Numbered w c :=
  h.imp id fun ⟨slot, hslot⟩ => ⟨slot, hs.subset hslot⟩

theorem Numbered.extends (hw : w.Extends w') (h : t.Numbered w c) : t.Numbered w' c :=
  h.imp (fun ⟨r, p, hs⟩ => ⟨r, p, hs.extends hw⟩) id

theorem slot?_of_mem {slot : Nat} (h : (c, slot) ∈ t.slots) : ∃ j, t.slot? c = some j := by
  cases hslot : t.slot? c with
  | some j => exact ⟨j, rfl⟩
  | none =>
    rw [slot?, List.lookup_eq_none_iff] at hslot
    simpa using hslot _ h

theorem Linked.encodeRef_ok (h : t.Linked w) (hc : t.Numbered w c) :
    ∃ bytes, t.encodeRef w.store w.env c = .ok bytes := by
  rcases hc with ⟨r, p, hs⟩ | ⟨slot, hslot⟩
  · obtain ⟨m, hm, rfl | ⟨name, rfl⟩⟩ := hs.typeAt
    · exact ⟨Leb128.encodeSigned p.opcode, by simp [TypeTable.encodeRef, hm]⟩
    · cases hslot : t.slot? c with
      | some j => exact ⟨Leb128.encodeSigned j, by simp [TypeTable.encodeRef, hm, hslot]⟩
      | none =>
        refine ⟨Leb128.encodeSigned p.opcode, ?_⟩
        rw [TypeTable.encodeRef, Except.bind_eq_ok]
        refine ⟨_, hm, ?_⟩
        simp only [hslot, TypeNode.kind, if_true, Except.bind_eq_ok]
        exact ⟨r, hs.follow, _, hs.node, rfl⟩
  · obtain ⟨a, ha, halias⟩ := h.slot c slot hslot
    obtain ⟨n, hn, -⟩ := h.root slot a ha
    obtain ⟨r, n', hs, -⟩ := halias.standsFor hn
    obtain ⟨m, hm, -⟩ := hs.typeAt
    obtain ⟨j, hj⟩ := slot?_of_mem hslot
    simp only [TypeTable.encodeRef, Except.bind_eq_ok, hj]
    cases m with
    | primitive p => exact ⟨_, _, hm, rfl⟩
    | _ => exact ⟨_, _, hm, rfl⟩

/-! ### Registering gives a number -/

/-- The run notes more slots, and takes none of them back unless it gives up. -/
def Notes {α : Type} (x : Action TypeTable α) (t : TypeTable) (post : TypeTable → Prop) : Prop :=
  Runs x t (fun _ t' => t.slots <:+ t'.slots ∧ post t') fun _ _ => True

theorem Notes.after {α : Type} {x : Action TypeTable α} {post : TypeTable → Prop}
    (hs : t.slots <:+ t'.slots) (h : Notes x t' post) :
    Runs x t' (fun _ t'' => t.slots <:+ t''.slots ∧ post t'') fun _ _ => True :=
  h.post_mono fun _ _ h => ⟨hs.trans h.1, h.2⟩

theorem notes_parts {depth : Nat}
    (ih : ∀ t c, Notes (registerWithin w.store w.env depth c) t (Numbered w · c)) :
    ∀ (types : List TypeId) (t : TypeTable),
      Notes (types.forM fun part => do let _ ← registerWithin w.store w.env depth part) t fun _ => True
  | [], t => ⟨List.suffix_rfl, trivial⟩
  | c :: types, t => by
    refine runs_bind (runs_bind ((ih t c).post_mono ?_))
    rintro - t1 ⟨hs1, -⟩
    exact runs_pure ((notes_parts ih types t1).after hs1)

theorem notes_registerWithin : ∀ (depth : Nat) (t : TypeTable) (c : TypeId),
    Notes (registerWithin w.store w.env depth c) t (Numbered w · c)
  | 0, t, c => runs_fail trivial
  | depth + 1, t, c => by
    unfold registerWithin
    refine runs_bind (runs_of_ok rfl ?_)
    split
    · next slot hslot => exact runs_pure ⟨List.suffix_rfl, .inr ⟨slot, slot?_eq_some hslot⟩⟩
    refine runs_bind (runs_answer (fun actual hactual => ?_) fun _ _ => trivial)
    refine runs_bind (runs_of_ok rfl ?_)
    split
    · next slot hslot =>
      refine runs_bind (runs_of_ok rfl (runs_pure ⟨by simp, .inr ⟨slot, by simp⟩⟩))
    refine runs_bind (runs_answer (fun node hnode => ?_) fun _ _ => trivial)
    split
    · next p => exact runs_pure ⟨List.suffix_rfl, .inl ⟨actual, p, hactual, hnode⟩⟩
    refine runs_bind (runs_of_ok rfl (runs_bind (runs_answer (fun found _ => ?_) fun _ _ => trivial)))
    split
    · next slot _ =>
      exact runs_bind (runs_of_ok rfl (runs_pure
        ⟨List.suffix_append [(c, slot), (actual, slot)] _, .inr ⟨slot, by simp⟩⟩))
    · refine runs_bind (runs_of_ok rfl (runs_bind (runs_of_ok rfl (runs_bind ?_))))
      refine (notes_parts (notes_registerWithin depth) (parts node) _).post_mono ?_
      rintro - t2 ⟨hs2, -⟩
      refine runs_bind (runs_of_ok rfl (runs_bind (runs_answer (fun entry _ => ?_) fun _ _ => trivial)))
      have hs : t.slots <:+ t2.slots :=
        (List.suffix_append [(c, t.entries.size), (actual, t.entries.size)] _).trans hs2
      exact runs_bind (runs_of_ok rfl (runs_pure
        ⟨hs, .inr ⟨t.entries.size, hs2.subset (by simp)⟩⟩))

theorem notes_addArg (t : TypeTable) (c : TypeId) :
    Notes (addArg w.store w.env c) t (Numbered w · c) := by
  refine runs_bind ((notes_registerWithin _ t c).post_mono ?_)
  rintro - t1 ⟨hs, hc⟩
  exact runs_of_ok rfl ⟨hs, hc⟩

/-! ### Adding types -/

/-- A table after types were added to it one after another, each successfully and each as the factories
    make them. In between more types may come into the scope, and more names. -/
inductive Run : Scope → TypeTable → List TypeId → Prop where
  | start (w : Scope) : Run w {} []
  | grown {w w' : Scope} {t : TypeTable} {types : List TypeId} :
      Run w t types → w.Extends w' → Run w' t types
  | added {w : Scope} {t t' : TypeTable} {types : List TypeId} {c : TypeId} :
      Run w t types → w.Throughout TypeNode.Canonical c → addArg w.store w.env c t = .ok () t' →
      Run w t' (types ++ [c])

/-- The table holds the types that were added, and has a number for each. -/
structure Lists (w : Scope) (t : TypeTable) (types : List TypeId) : Prop where
  complete : t.Complete w
  args : t.args.toList = types
  numbered : ∀ c ∈ types, t.Numbered w c

theorem Run.lists (h : Run w t types) : Lists w t types := by
  induction h with
  | start w => exact ⟨complete_empty w, rfl, by simp⟩
  | grown _ hw ih =>
    exact ⟨ih.complete.extends hw, ih.args, fun c hc => (ih.numbered c hc).extends hw⟩
  | @added w t t' types c _ hcanon hadd ih =>
    obtain ⟨-, -, hargs, -, hcomplete⟩ := (runs_addArg ih.complete c).ok hadd
    obtain ⟨hslots, hc⟩ := (notes_addArg t c).ok hadd
    refine ⟨hcomplete hcanon, by rw [hargs, Array.toList_push, ih.args], fun d hd => ?_⟩
    rcases List.mem_append.mp hd with hd | hd
    · exact (ih.numbered d hd).later hslots
    · exact List.mem_singleton.mp hd ▸ hc

end TypeTable

namespace Header

open TypeTable

variable {w : Scope} {t : TypeTable} {types : List TypeId}

/-- What is written for a table, if anything is: the magic bytes, and then its slots and arguments, each
    by a number that stands for it. -/
theorem encode_eq_ok {bytes : List UInt8} (h : t.Linked w) (hb : encode t w.store w.env = .ok bytes) :
    ∃ code : TypeId → Int, (∀ c ∈ t.args.toList, t.Refers w c (code c)) ∧
      bytes = magic ++ bodyBytes t code := by
  obtain ⟨code, hcode⟩ := h.codes
  simp only [encode, TypeTable.encode, Except.bind_eq_ok, Except.pure_eq_ok] at hb
  obtain ⟨table, ⟨args, hargs, rfl⟩, rfl⟩ := hb
  obtain ⟨rfl, hrefers⟩ := encodeRefs_eq_ok hcode hargs
  refine ⟨code, hrefers, ?_⟩
  rw [bodyBytes, List.append_assoc (Leb128.encodeUnsigned _)]
  rfl

theorem encode_ok (h : Lists w t types) : ∃ bytes, encode t w.store w.env = .ok bytes := by
  have hargs : ∀ c ∈ t.args.toList, ∃ ref, t.encodeRef w.store w.env c = .ok ref :=
    fun c hc => h.complete.toLinked.encodeRef_ok (h.numbered c (h.args ▸ hc))
  obtain ⟨refs, hrefs⟩ := Except.mapM_of_forall hargs
  simp only [encode, TypeTable.encode, encodeRefs, Except.bind_eq_ok, Except.pure_eq_ok]
  exact ⟨_, _, ⟨_, ⟨refs, hrefs, rfl⟩, rfl⟩, rfl⟩

/-- A header can be written for every table that types were added to, and is read back from the front of
    whatever it is the front of: all its bytes are taken, and there is a type for each that was added,
    in order, which unfolds through the names of the header to the same tree. Reading fails only where
    the store has a limit, and is full. A header that lies in memory is shorter than `2 ^ 63` bytes. -/
theorem encode_parse (h : TypeTable.Run w t types) : ∃ bytes, encode t w.store w.env = .ok bytes ∧
    (bytes.length < 2 ^ 63 → ∀ (rest : List UInt8) (receiver : Store),
      Runs (parse (bytes ++ rest)) receiver
        (fun (header, length) s => length = bytes.length ∧ header.args.length = types.length ∧
          List.Forall₂ (fun c u => w.SameTree c ⟨s, header.env⟩ u) types header.args)
        fun e _ => e = .storeFull ∧ receiver.limit ≠ none) := by
  obtain ⟨bytes, hb⟩ := encode_ok h.lists
  refine ⟨bytes, hb, fun hlength rest receiver => ?_⟩
  obtain ⟨code, hrefers, rfl⟩ := encode_eq_ok h.lists.complete.toLinked hb
  rw [List.length_append] at hlength
  refine (runs_parse receiver h.lists.complete hrefers (by omega) rest).mono ?_
    fun e s ⟨he, hout⟩ => ⟨he, hout.limited⟩
  rintro ⟨header, length⟩ s ⟨-, -, hbytes, hsame⟩
  rw [h.lists.args] at hsame
  exact ⟨hbytes, hsame.length_eq.symm, hsame⟩

/-- A list type that is named by itself, under a name for its name. -/
def chain : Scope where
  store := {
    types := #[.primitive (.fixed .nat8), .var "list", .opt ⟨1⟩,
      .record [⟨.bare 0, ⟨0⟩⟩, ⟨.bare 1, ⟨2⟩⟩], .var "also"] }
  env := ⟨[("also", ⟨1⟩), ("list", ⟨3⟩)]⟩

theorem chain_parsed : ∃ t bytes, TypeTable.Run chain t [⟨4⟩] ∧
    encode t chain.store chain.env = .ok bytes ∧ bytes.length < 2 ^ 63 ∧
    ∃ header s u, parse bytes {} = .ok (header, bytes.length) s ∧ header.args = [u] ∧
      chain.SameTree ⟨4⟩ ⟨s, header.env⟩ u := by
  have hcanon : chain.Throughout TypeNode.Canonical ⟨4⟩ := by
    refine .of_store (fun n hn => ?_) ⟨4⟩
    simp only [chain, List.mem_toArray, List.mem_cons, List.not_mem_nil, or_false] at hn
    rcases hn with rfl | rfl | rfl | rfl | rfl
    all_goals simp [TypeNode.Canonical, Increasing, Label.id]
  have hadded : ∃ t, TypeTable.Run chain t [⟨4⟩] ∧ encode t chain.store chain.env =
      .ok [0x44, 0x49, 0x44, 0x4c, 2, 0x6c, 2, 0, 0x7b, 1, 1, 0x6e, 0, 1, 0] := by
    refine ⟨_, .added (.start chain) hcanon (rfl : addArg _ _ ⟨4⟩ {} = _), ?_⟩
    decide +kernel
  obtain ⟨t, hrun, hbytes⟩ := hadded
  obtain ⟨bytes, hencode, hparse⟩ := encode_parse hrun
  have hlength : bytes.length < 2 ^ 63 := by
    rw [← Except.ok.inj (hbytes.symm.trans hencode)]
    simp
  refine ⟨t, bytes, hrun, hencode, hlength, ?_⟩
  rcases (hparse hlength [] {}).ends with ⟨⟨header, length⟩, s, hread, rfl, -, hsame⟩ | ⟨e, s, -, -, he⟩
  · obtain ⟨u, us, hu, hnone, hargs⟩ := List.forall₂_cons_left_iff.mp hsame
    obtain rfl := List.forall₂_nil_left_iff.mp hnone
    rw [List.append_nil] at hread
    exact ⟨header, s, u, hread, hargs, hu⟩
  · exact absurd rfl he

end Header

end TypedWire
