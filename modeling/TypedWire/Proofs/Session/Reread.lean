import TypedWire.Proofs.Schema.Settled
import TypedWire.Proofs.Session.Decode
import TypedWire.Proofs.Value.Preservation
import TypedWire.Proofs.Value.Written

/-! A reshaped value is written and read again by the type that it was reshaped to. Its bytes are all
    taken, and the value that they bring is equal to it, unless it has an empty list where the type has a
    byte string: a list of a type without values is reshaped to a list, and not to the byte string that
    the decoder makes. -/

namespace TypedWire

open TypedWire.Action

variable {s s1 : Store} {env : Env} {form : Form} {v c : ValueId} {wire expected e : TypeId} {depth : Nat}
variable {own : TypeId → Prop} {items : List ValueId} {w : Scope}

/-! ### Lists of bytes -/

/-- There are no items, if they are bytes. -/
def NoBytes (w : Scope) (items : List ValueId) (e : TypeId) : Prop := w.isByte e = true → items = []

/-- Reshaping an empty list gives an empty one, and no item that is not a byte is reshaped to a byte. -/
theorem allows_noBytes (w : Scope) : Coerce.Allows w (NoBytes w) where
  other items e hother hbyte := absurd hbyte (by simp [hother])
  reshaped items items' e e' hitems hpairs hbyte := by
    cases hpairs with
    | nil => rfl
    | cons h _ => exact absurd (hitems (h hbyte)) (by simp)

/-- A decoded value has byte strings for bytes. -/
theorem Store.OfType.noBytes (h : s.OfType w .decoded depth v expected) :
    s.OfTypeWith w .reshaped (NoBytes w) depth v expected := by
  refine h.with (fun sub items e hfill hbyte => ?_) Form.decoded_implies
  cases hfill with
  | vec hother _ =>
    obtain ⟨r, n, hn, hne⟩ := hother rfl
    rw [hn.isByte, decide_eq_true_eq] at hbyte
    exact absurd hbyte hne

/-- What is reshaped from a decoded value is of the type expected, and has no list of bytes but an empty
    one. -/
theorem coerce_noBytes (hv : s.WellTyped env .decoded v wire) (hwire : Scope.Distinct ⟨s, env⟩ wire)
    (hcoerce : coerce env v wire expected s = .ok c s1) :
    s.Grows s1 ∧ ∃ depth, s1.OfTypeWith ⟨s1, env⟩ .reshaped (NoBytes ⟨s1, env⟩) depth c expected := by
  obtain ⟨depth, hv⟩ := hv
  obtain ⟨hs, hc⟩ :=
    (Coerce.leads_coerceWith env expected (allows_noBytes _) rfl hv.noBytes hwire).ok hcoerce
  have hbytes : NoBytes ⟨s1, env⟩ = NoBytes ⟨s, env⟩ := by
    funext items e
    simp only [NoBytes, Scope.isByte, Scope.resolve_congr env hs.types]
  exact ⟨hs, _, hbytes ▸ hc⟩

/-- A node is packed if it is typed, and no list of bytes. -/
theorem Store.Fills.packed {sub : ValueId → TypeId → Prop} {x : Value} {n : TypeNode}
    (h : s.Fills w .reshaped (fun v t => t ∈ TypeTable.parts n → sub v t) x n)
    (hother : ∀ e, n = .vec e → ∃ r m, w.StandsFor e r m ∧ m ≠ .primitive (.fixed .nat8)) :
    s.Fills w .decoded sub x n := by
  cases h with
  | null => exact .null
  | reserved => exact .reserved
  | bool b => exact .bool b
  | nat hb hnum => exact .nat hb hnum
  | int hb hnum => exact .int hb hnum
  | fixed m => exact .fixed m
  | text ht => exact .text ht
  | principal hb hle => exact .principal hb hle
  | blob hb hbyte => exact .blob hb hbyte
  | none inner => exact .none inner
  | some hv => exact .some (hv List.mem_cons_self)
  | vec _ hitems => exact .vec (fun _ => hother _ rfl) fun v hv => hitems v hv List.mem_cons_self
  | record hxs =>
    have hmem := (List.forall₂_and_left _ _).mpr ⟨fun f hf => hf, hxs⟩
    exact .record (hmem.imp fun _ _ ⟨hf, hlabel, hx⟩ => ⟨hlabel, hx (List.mem_map_of_mem hf)⟩)
  | variant hf hlabel hx =>
    exact .variant hf hlabel (hx (List.mem_map_of_mem (List.mem_of_getElem? hf)))
  | service hb hle => exact .service hb hle
  | func hb hle ht => exact .func hb hle ht

/-- A reshaped value is as a decoded one where nothing in its type is a list of bytes. -/
theorem Store.OfType.packed (hsettled : w.Settled own)
    (hother : ∀ t r e, own t → w.StandsFor t r (.vec e) → w.isByte e = false) :
    ∀ {depth : Nat} {v : ValueId} {t : TypeId}, own t → s.OfType w .reshaped depth v t →
      s.OfType w .decoded depth v t
  | 0, _, _, _, h => h.elim
  | depth + 1, v, t, ht, ⟨r, n, hs, x, hx, h⟩ => by
    obtain ⟨-, -, hparts⟩ := hsettled.node ht hs
    have hkids : ∀ v c, s.OfType w .reshaped depth v c → c ∈ TypeTable.parts n →
        s.OfType w .decoded depth v c :=
      fun v c hv hc => Store.OfType.packed hsettled hother (hparts c hc) hv
    refine ⟨r, n, hs, x, hx, (h.mono (.refl s) (fun _ _ _ => id) (.refl _) hkids).packed ?_⟩
    rintro e rfl
    obtain ⟨q, m, hm, -⟩ := hsettled e (hparts e List.mem_cons_self)
    have hbyte := hother t r e ht hs
    rw [hm.isByte, decide_eq_false_iff_not] at hbyte
    exact ⟨q, m, hm, hbyte⟩

/-! ### Writing and reading -/

theorem Scope.Settled.sameTree_self (h : w.Settled own) (ht : own e) : w.SameTree e w e := by
  refine ⟨fun a b => own a ∧ a = b, ?_, ht, rfl⟩
  rintro a _ ⟨ha, rfl⟩
  obtain ⟨r, n, hs, -, -, hparts⟩ := h a ha
  exact ⟨r, n, r, n, hs, hs,
    (TypeNode.Alike.refl (fun _ => rfl) hs.not_var).of_parts fun c hc d hcd => ⟨hparts c hc, hcd⟩⟩

theorem Output.value_eq_ok {d : Datum} {k : Nat} (hd : s.Holds depth v d) (ht : w.Types k d e) :
    value s v #[] = .ok () d.encode.toArray := by
  have hruns := (goes_value hd ht #[]).and (writes_valueWithin s _ v #[])
  obtain ⟨u, out, hrun, -, more, hout, hmore⟩ := hruns.ends.resolve_right (by simp)
  rw [hmore _ _ hd] at hout
  have hbytes : out = d.encode.toArray := Array.toList_inj.mp (by simpa using hout)
  exact hbytes ▸ hrun

/-- A value that was reshaped from a decoded one can be written. It is of the type expected, and has no
    list of bytes but an empty one. Wherever its bytes come next, they are all taken when a value of the
    type is read that nests as deep, unless the store is full; what is read holds the tree that it
    holds, with byte strings for lists of bytes, and is equal to it if it has byte strings for them
    itself. A store that is full was not spacious for as many bytes, and has a limit, or has come to a byte
    string of the tree that it does not take. The type is such as the factories make, and so is all that is
    met inside it; the lengths of spans have 32 bits, and those of lists 64, as the handles of a store
    have. -/
theorem coerce_reread (hv : s.WellTyped env .decoded v wire) (hwire : Scope.Distinct ⟨s, env⟩ wire)
    (hsettled : Scope.Settled ⟨s, env⟩ own) (hown : own expected)
    (hcoerce : coerce env v wire expected s = .ok c s1) (hsized : s1.Sized) :
    (∃ depth, s1.OfTypeWith ⟨s1, env⟩ .reshaped (NoBytes ⟨s1, env⟩) depth c expected) ∧
    ∃ bytes, Output.value s1 c #[] = .ok () bytes.toArray ∧
      ∀ (depth : Nat) (cx : Decode.Context) (state : Decode.State) (rest : List UInt8),
        s1.OfType ⟨s1, env⟩ .reshaped depth c expected → cx.env = env → cx.quota = 0 →
        state.store = s1 → state.reader.unread = some (bytes ++ rest) →
        Runs (Decode.value cx depth expected) state
          (fun c' state' => state'.reader = ⟨state.reader.offset + bytes.length, some rest⟩ ∧
            s1.Extends state'.store ∧
            (∃ d, s1.Holds depth c d ∧
              state'.store.Holds depth c' (Scope.readBack ⟨s1, env⟩ depth expected d)) ∧
            (s1.OfType ⟨s1, env⟩ .decoded depth c expected →
              state'.store.equal c state'.store c' = .ok true))
          fun e state' => e = .storeFull ∧ s1.RunsOut bytes.length
            (fun n => ∃ d, s1.Holds depth c d ∧
              (Scope.readBack ⟨s1, env⟩ depth expected d).Lengths n) state'.store := by
  obtain ⟨hs, depth, hc⟩ := coerce_noBytes hv hwire hcoerce
  have hsettled' := hsettled.extends (Scope.extends_store env hs.toExtends)
  have hcanon := hsettled'.canonical hown
  obtain ⟨d, hd, htypes, -⟩ := hc.without.stands hsized hcanon
  refine ⟨⟨depth, hc⟩, d.encode, Output.value_eq_ok hd htypes, ?_⟩
  rintro fuel cx ⟨⟨offset, _⟩, _, cost, log⟩ rest hfuel rfl hquota rfl ⟨⟩
  obtain ⟨d', hd', htypes', -⟩ := hfuel.stands hsized hcanon
  obtain rfl := hd.functional hd'
  refine (Decode.reverts hquota fuel (fun _ hn => ⟨d, hd', hn⟩) htypes' hcanon
    (hsettled'.sameTree_self hown) _ offset rest trivial (.refl _) rfl).post_mono ?_
  rintro c' s2 ⟨-, hs2, -, hreader, hheld⟩
  refine ⟨hreader, hs2, ⟨d, hd', hheld⟩, fun hpacked => ?_⟩
  obtain ⟨d', hd'', -, hread⟩ := hpacked.bears hsized hcanon
  obtain rfl := hd'.functional hd''
  rw [hread] at hheld
  exact Store.equal_of_holds (hd'.extends hs2) hheld

/-- A record of a number, reshaped to one of a wider number and an `opt`, is read back equal. -/
theorem numbered_reread : ∃ c s1, coerce {} ⟨1⟩ ⟨2⟩ ⟨3⟩ Coerce.numbered = .ok c s1 ∧ ∃ bytes,
    Output.value s1 c #[] = .ok () bytes.toArray ∧ ∃ depth c' state',
      Decode.value { env := {} } depth ⟨3⟩ ⟨⟨0, some bytes⟩, s1, 0, #[]⟩ = .ok c' state' ∧
      state'.reader = ⟨bytes.length, some []⟩ ∧ state'.store.equal c state'.store c' = .ok true := by
  have hv : Coerce.numbered.WellTyped {} .decoded ⟨1⟩ ⟨2⟩ := by
    refine ⟨2, ⟨2⟩, _, ⟨rfl, rfl⟩, _, rfl, .record (.cons ⟨rfl, ?_⟩ .nil)⟩
    exact ⟨⟨0⟩, _, ⟨rfl, rfl⟩, _, rfl, .nat rfl (by decide)⟩
  have hwire : Scope.Distinct ⟨Coerce.numbered, {}⟩ ⟨2⟩ := .of_store (by decide) _
  have hsettled : Scope.Settled ⟨Coerce.numbered, {}⟩ (· ∈ [⟨0⟩, ⟨1⟩, ⟨3⟩, ⟨4⟩]) := by
    intro t ht
    simp only [List.mem_cons, List.not_mem_nil, or_false] at ht
    rcases ht with rfl | rfl | rfl | rfl
    · exact ⟨⟨0⟩, .primitive .nat, ⟨rfl, rfl⟩, by simp, trivial, by simp [TypeTable.parts]⟩
    · exact ⟨⟨1⟩, .primitive .int, ⟨rfl, rfl⟩, by simp, trivial, by simp [TypeTable.parts]⟩
    · exact ⟨⟨3⟩, .record [⟨.bare 0, ⟨1⟩⟩, ⟨.bare 1, ⟨4⟩⟩], ⟨rfl, rfl⟩, by simp,
        by simp [TypeNode.Canonical, Increasing, Label.id], by simp [TypeTable.parts]⟩
    · exact ⟨⟨4⟩, .opt ⟨0⟩, ⟨rfl, rfl⟩, by simp, trivial, by simp [TypeTable.parts]⟩
  have hall : (coerce {} ⟨1⟩ ⟨2⟩ ⟨3⟩).passes Coerce.numbered (fun c s1 => decide s1.Sized &&
      (Output.value s1 c).passes #[] fun _ out => s1.Spacious out.size) = true := by
    decide +kernel
  obtain ⟨c, s1, hcoerce, hall⟩ := passes_iff.mp hall
  simp only [Bool.and_eq_true, decide_eq_true_eq] at hall
  obtain ⟨hsized, hspacious⟩ := hall
  obtain ⟨⟨depth, hc⟩, bytes, hwritten, hread⟩ :=
    coerce_reread hv hwire hsettled (by simp) hcoerce hsized
  have hroom : s1.Spacious bytes.length := by
    obtain ⟨_, out, hout, hspacious⟩ := passes_iff.mp hspacious
    obtain ⟨-, rfl⟩ := EStateM.Result.ok.inj (hout.symm.trans hwritten)
    simpa using hspacious
  rcases (hread depth { env := {} } ⟨⟨0, some bytes⟩, s1, 0, #[]⟩ [] hc.without rfl rfl rfl
    (by simp)).ends with ⟨c', state', hdone, hreader, -, -, hequal⟩ | ⟨e, state', -, -, hfull⟩
  · refine ⟨c, s1, hcoerce, bytes, hwritten, depth, c', state', hdone, by simpa using hreader, hequal ?_⟩
    have hgrown := Scope.extends_store {} (coerce_noBytes hv hwire hcoerce).1.toExtends
    have hnone : ∀ n ∈ Coerce.numbered.types, ∀ e, n ≠ .vec e := by simp [Coerce.numbered]
    refine hc.without.packed (hsettled.extends hgrown) (fun t r e ht hs => ?_) (by simp)
    obtain ⟨q, m, hm, -⟩ := hsettled t ht
    obtain rfl := hs.node_eq (hm.extends hgrown)
    exact absurd rfl (hnone _ (Array.mem_of_getElem? (Store.typeAt_eq_ok.mp hm.node)) e)
  · exact absurd hroom hfull.short

/-- A list of a type without values, and a type of byte strings, which the first fits. -/
def emptyList : Store where
  types := #[.primitive .empty, .vec ⟨0⟩, .primitive (.fixed .nat8), .vec ⟨2⟩]
  values := #[.vec []]

/-- An empty list that is reshaped to a byte string stays a list; it is written, and is read as a byte
    string, which is not equal to it. -/
theorem emptyList_reread :
    emptyList.WellTyped {} .decoded ⟨0⟩ ⟨1⟩ ∧
    Subtype.fits { store := emptyList, env := {} } 512 ⟨1⟩ ⟨3⟩ {} = .ok .ok {} ∧
    ∃ s1, coerce {} ⟨0⟩ ⟨1⟩ ⟨3⟩ emptyList = .ok ⟨1⟩ s1 ∧ s1.valueAt ⟨1⟩ = .ok (.vec []) ∧
      Output.value s1 ⟨1⟩ #[] = .ok () #[0] ∧ ∃ state',
        Decode.value { env := {} } 512 ⟨3⟩ ⟨⟨0, some [0]⟩, s1, 0, #[]⟩ = .ok ⟨2⟩ state' ∧
        state'.reader = ⟨1, some []⟩ ∧ state'.store.valueAt ⟨2⟩ = .ok (.blob .empty) ∧
        state'.store.equal ⟨1⟩ state'.store ⟨2⟩ = .ok false := by
  have htyped : emptyList.WellTyped {} .decoded ⟨0⟩ ⟨1⟩ :=
    ⟨1, ⟨1⟩, _, ⟨rfl, rfl⟩, _, rfl,
      .vec (fun _ => ⟨⟨0⟩, .primitive .empty, ⟨rfl, rfl⟩, by simp⟩) (by simp)⟩
  have hwritten : (Output.value { emptyList with values := #[.vec [], .vec []], charged := 40 } ⟨1⟩).passes
      #[] (fun _ out => out = #[0]) = true := by decide +kernel
  obtain ⟨_, out, hout, hbytes⟩ := passes_iff.mp hwritten
  rw [decide_eq_true_eq] at hbytes
  subst hbytes
  exact ⟨htyped, rfl, _, rfl, rfl, hout, ⟨⟨1, some []⟩, _, _, _⟩, rfl, rfl, rfl, rfl⟩

end TypedWire
