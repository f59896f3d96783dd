import TypedWire.Proofs.Value.Equal
import TypedWire.Proofs.Value.ReadBack
import TypedWire.Proofs.Value.Typed

/-! Typed values are fit to be written. A value of a type holds a tree of that type; one that was decoded
    is read back as it is: what is a `vec nat8` is a byte string already, and the fields of a record lie
    in order. To write a value that holds a tree of a type never fails. -/

namespace TypedWire

open TypedWire.Action

/-! ### Sizes -/

/-- The numbers in a value node are such as its handles have: a span has a length of 32 bits, and a list
    one of 64. -/
def Value.Sized : Value → Prop
  | .nat p | .int p | .text p | .principal p | .blob p | .service p => p.length < 2 ^ 32
  | .func p q => p.length < 2 ^ 32 ∧ q.length < 2 ^ 32
  | .vec items => items.length < 2 ^ 64
  | _ => True

instance : DecidablePred Value.Sized
  | .nat p | .int p | .text p | .principal p | .blob p | .service p =>
    inferInstanceAs (Decidable (p.length < 2 ^ 32))
  | .func p q => inferInstanceAs (Decidable (p.length < 2 ^ 32 ∧ q.length < 2 ^ 32))
  | .vec items => inferInstanceAs (Decidable (items.length < 2 ^ 64))
  | .null | .reserved | .bool _ | .fixed _ | .opt _ | .record _ | .variant _ _ => isTrue trivial

/-- All value nodes of the store are sized. -/
def Store.Sized (s : Store) : Prop := ∀ x ∈ s.values, x.Sized

instance (s : Store) : Decidable s.Sized := inferInstanceAs (Decidable (∀ x ∈ s.values, x.Sized))

namespace Store

variable {s : Store} {w : Scope} {sub : ValueId → TypeId → Prop} {x : Value} {n : TypeNode}
variable {v : ValueId} {t : TypeId} {p : Span} {bytes : List UInt8} {depth : Nat}

theorem Sized.value (h : s.Sized) (hx : s.valueAt v = .ok x) : x.Sized :=
  h x (Array.mem_of_getElem? (valueAt_eq_ok.mp hx))

theorem length_bytesAt (h : s.bytesAt p = .ok bytes) : bytes.length = p.length := by
  unfold Store.bytesAt at h
  split at h
  · next hz => rw [← Except.ok.inj h, hz, List.length_nil]
  · split at h
    · dsimp only at h
      split at h
      · next hle =>
        rw [← Except.ok.inj h, Array.length_toList, Array.size_extract]
        omega
      · exact absurd h (by simp)
    · exact absurd h (by simp)

theorem payload_bytesAt (h : s.bytesAt p = .ok bytes) (hp : p.length < 2 ^ 32) : Payload bytes := by
  rwa [Payload, length_bytesAt h]

theorem payload_textAt {text : String} (h : s.textAt p = .ok text) (hp : p.length < 2 ^ 32) :
    Payload (utf8 text) := by
  obtain ⟨bytes, hb, htext⟩ := textAt_eq_ok.mp h
  rw [← utf8?_eq_some htext]
  exact payload_bytesAt hb hp

end Store

/-! ### Trees -/

/-- What lies in order stays as it is. -/
theorem inLabelOrder?_of_increasing {α : Type} {label : α → Label} {items : List α}
    (h : Increasing (fun x => (label x).id) items) : inLabelOrder? label items = some items := by
  have hdistinct : ∀ {xs : List α}, Increasing (fun x => (label x).id) xs →
      distinctNeighbours (fun x => (label x).id) xs = true := by
    intro xs
    induction xs with
    | nil => exact fun _ => rfl
    | cons x xs ih =>
      intro hxs
      obtain ⟨hfirst, hrest⟩ := List.pairwise_cons.mp hxs
      cases xs with
      | nil => rfl
      | cons y ys =>
        have hne := UInt32.ne_of_lt (hfirst y List.mem_cons_self)
        rw [distinctNeighbours, ih hrest, Bool.and_true, decide_eq_true_eq]
        exact hne
  have hsorted : items.mergeSort (fun x y => decide ((label x).id ≤ (label y).id)) = items :=
    List.mergeSort_of_pairwise (h.imp fun hlt => by simpa using UInt32.le_of_lt hlt)
  simp only [inLabelOrder?, hsorted, hdistinct h, if_true]

namespace Store

variable {s : Store} {w : Scope} {sub : ValueId → TypeId → Prop} {x : Value} {n : TypeNode}
variable {v : ValueId} {t : TypeId} {depth : Nat}

/-- The value holds a tree of the type, which is read back as it is. -/
def Bears (s : Store) (w : Scope) (depth : Nat) (v : ValueId) (t : TypeId) : Prop :=
  ∃ d, s.Holds depth v d ∧ w.Types depth d t ∧ w.readBack depth t d = d

/-- The value holds a tree of the type; if it is packed, the tree is read back as it is. -/
def Stands (s : Store) (w : Scope) (form : Form) (depth : Nat) (v : ValueId) (t : TypeId) : Prop :=
  ∃ d, s.Holds depth v d ∧ w.Types depth d t ∧ (form.packed = true → w.readBack depth t d = d)

variable {form : Form}

theorem items_stand {e : TypeId} : ∀ {items : List ValueId},
    (∀ v ∈ items, s.Stands w form depth v e) →
    ∃ ds, List.Forall₂ (s.Holds depth) items ds ∧ (∀ d ∈ ds, w.Types depth d e) ∧
      (form.packed = true → ds.map (w.readBack depth e) = ds)
  | [], _ => ⟨[], .nil, by simp, fun _ => rfl⟩
  | v :: items, h => by
    rw [List.forall_mem_cons] at h
    obtain ⟨d, hd, htypes, hread⟩ := h.1
    obtain ⟨ds, hds, hall, hmap⟩ := items_stand h.2
    refine ⟨d :: ds, .cons hd hds, List.forall_mem_cons.mpr ⟨htypes, hall⟩, fun hpacked => ?_⟩
    rw [List.map_cons, hread hpacked, hmap hpacked]

theorem fields_stand {fields : List Field} {xs : List FieldValue}
    (h : List.Forall₂ (fun f x => x.label.id = f.label.id ∧ s.Stands w form depth x.value f.type)
      fields xs) :
    ∃ ds : List (UInt32 × Datum),
      List.Forall₂ (fun x d => x.label.id = d.1 ∧ s.Holds depth x.value d.2) xs ds ∧
      List.Forall₂ (fun f d => f.label.id = d.1 ∧ w.Types depth d.2 f.type) fields ds ∧
      (form.packed = true → fields.zipWith (fun f d => (d.1, w.readBack depth f.type d.2)) ds = ds) := by
  induction h with
  | nil => exact ⟨[], .nil, .nil, fun _ => rfl⟩
  | @cons f x _ _ hx _ ih =>
    obtain ⟨hlabel, d, hd, htypes, hread⟩ := hx
    obtain ⟨ds, hds, hall, hzip⟩ := ih
    refine ⟨(f.label.id, d) :: ds, .cons ⟨hlabel, hd⟩ hds, .cons ⟨rfl, htypes⟩ hall, fun hpacked => ?_⟩
    rw [List.zipWith_cons_cons, hzip hpacked, hread hpacked]

/-- One node of a typed value. -/
theorem Fills.stands (hsized : x.Sized) (hcanon : n.Canonical)
    (h : s.Fills w form (fun v t => t ∈ TypeTable.parts n → s.Stands w form depth v t) x n) :
    ∃ d, s.Shows (s.Holds depth) x d ∧ w.Admits (w.Types depth) n d ∧
      (form.packed = true → w.readNode (w.readBack depth) n d = d) := by
  cases h with
  | null => exact ⟨.null, .null, .null, fun _ => rfl⟩
  | reserved => exact ⟨.reserved, .reserved, .reserved, fun _ => rfl⟩
  | bool b => exact ⟨.bool b, .bool b, .bool b, fun _ => rfl⟩
  | nat hb hnum => exact ⟨.nat _, .nat hb, .nat hnum (payload_bytesAt hb hsized), fun _ => rfl⟩
  | int hb hnum => exact ⟨.int _, .int hb, .int hnum (payload_bytesAt hb hsized), fun _ => rfl⟩
  | fixed m => exact ⟨.fixed m, .fixed m, .fixed m, fun _ => rfl⟩
  | text ht => exact ⟨.text _, .text ht, .text (payload_textAt ht hsized), fun _ => rfl⟩
  | principal hb hle => exact ⟨.principal _, .principal hb, .principal hle, fun _ => rfl⟩
  | blob hb hbyte => exact ⟨.blob _, .blob hb, .blob hbyte (payload_bytesAt hb hsized), fun _ => rfl⟩
  | none inner => exact ⟨.opt .none, .none, .none inner, fun _ => rfl⟩
  | some hv =>
    obtain ⟨d, hd, htypes, hread⟩ := hv (by simp [TypeTable.parts])
    exact ⟨.opt (.some d), .some hd, .some htypes, fun hpacked => by rw [Scope.readNode, hread hpacked]⟩
  | vec hother hitems =>
    obtain ⟨ds, hds, hall, hmap⟩ := items_stand fun v hv => hitems v hv (by simp [TypeTable.parts])
    refine ⟨.vec ds, .vec hds, .vec (hds.length_eq ▸ hsized) hall, fun hpacked => ?_⟩
    obtain ⟨r, m, hm, hne⟩ := hother hpacked
    rw [Scope.readNode, hm.isByte, decide_eq_false hne, if_neg (by simp), hmap hpacked]
  | @record xs fields hxs =>
    have hparts : List.Forall₂
        (fun f x => x.label.id = f.label.id ∧ s.Stands w form depth x.value f.type) fields xs :=
      ((List.forall₂_and_left _ _).mpr ⟨fun f hf => List.mem_map_of_mem hf, hxs⟩).imp
        fun _ _ hx => ⟨Form.SameLabel.id_eq hx.2.1, hx.2.2 hx.1⟩
    obtain ⟨ds, hds, hall, hzip⟩ := fields_stand hparts
    have hkeys : fields.map (·.label.id) = ds.map (·.1) := by
      rw [← List.forall₂_eq_eq_eq, List.forall₂_map_left_iff, List.forall₂_map_right_iff]
      exact hall.imp fun _ _ h => h.1
    have hordered : Increasing (fun d : UInt32 × Datum => (Label.bare d.1).id) ds := by
      have hlt : (ds.map (·.1)).Pairwise (· < ·) := hkeys ▸ List.pairwise_map.mpr hcanon
      exact List.pairwise_map.mp hlt
    refine ⟨.record ds, .record hds, .record hall (.refl ds) (inLabelOrder?_of_increasing hordered),
      fun hpacked => ?_⟩
    rw [Scope.readNode, hzip hpacked]
  | @variant fields index f x hf hlabel hx =>
    obtain ⟨d, hd, htypes, hread⟩ := hx (List.mem_map_of_mem (List.mem_of_getElem? hf))
    refine ⟨.variant index f.label.id d, .variant ?_ hd, .variant hf htypes, fun hpacked => ?_⟩
    · exact Form.SameLabel.id_eq hlabel
    · rw [Scope.readNode, hf, Option.map_some, Option.getD_some, hread hpacked]
  | service hb hle => exact ⟨.service _, .service hb, .service hle, fun _ => rfl⟩
  | func hb hle ht =>
    exact ⟨.func _ _, .func hb ht, .func hle (payload_textAt ht hsized.2), fun _ => rfl⟩

/-- A typed value holds a tree of its type. -/
theorem OfType.stands (hsized : s.Sized) : ∀ {depth : Nat} {v : ValueId} {t : TypeId},
    w.Throughout TypeNode.Canonical t → s.OfType w form depth v t → s.Stands w form depth v t
  | 0, _, _, _, h => h.elim
  | depth + 1, v, t, hcanon, ⟨r, n, hs, x, hx, h⟩ => by
    have hpart : ∀ v c, s.OfType w form depth v c → c ∈ TypeTable.parts n →
        s.Stands w form depth v c :=
      fun v c hv hc => OfType.stands hsized (hcanon.part hs hc) hv
    obtain ⟨d, hshow, hadm, hread⟩ := (h.mono (.refl s) (fun _ _ _ => id) (.refl _) hpart).stands
      (hsized.value hx) (hcanon.node hs)
    exact ⟨d, ⟨x, hx, hshow⟩, ⟨r, n, hs, hadm⟩, fun hpacked => hs.readBack.trans (hread hpacked)⟩

/-- A decoded value holds a tree of its type, which is read back as it is. -/
theorem OfType.bears (hsized : s.Sized) (hcanon : w.Throughout TypeNode.Canonical t)
    (h : s.OfType w .decoded depth v t) : s.Bears w depth v t := by
  obtain ⟨d, hd, htypes, hread⟩ := h.stands hsized hcanon
  exact ⟨d, hd, htypes, hread rfl⟩

end Store

/-! ### Writing -/

namespace Output

variable {α : Type} {x y : Action Output Unit} {s : Store} {w : Scope} {depth k : Nat} {v : ValueId}
variable {d : Datum} {t : TypeId}

/-- The run ends well, whatever has been written before. -/
def Goes (x : Action Output Unit) : Prop := ∀ out, Runs x out (fun _ _ => True) fun _ _ => False

theorem goes_pure : Goes (pure ()) := fun _ => runs_pure trivial

theorem goes_bytes (bs : List UInt8) : Goes (bytes bs) := fun _ => runs_of_ok rfl trivial

theorem goes_byte (b : UInt8) : Goes (byte b) := fun _ => runs_of_ok rfl trivial

theorem Goes.then (hx : Goes x) (hy : Goes y) : Goes (do x; y) := fun out =>
  runs_bind ((hx out).post_mono fun _ out1 _ => hy out1)

theorem goes_answer {answer : Except Fault α} {f : α → Action Output Unit} {a : α} (ha : answer = .ok a)
    (h : Goes (f a)) : Goes (do f (← Action.ofExcept answer)) :=
  fun out => runs_bind (runs_ofExcept ha (h out))

theorem goes_items {γ : Type} {write : γ → Action Output Unit} : ∀ {vs : List γ},
    (∀ v ∈ vs, Goes (write v)) → Goes (vs.forM write)
  | [], _ => goes_pure
  | v :: vs, h => by
    rw [List.forall_mem_cons] at h
    exact Goes.then h.1 (goes_items h.2)

theorem goes_blob (bs : List UInt8) : Goes (blob bs) := (goes_bytes _).then (goes_bytes bs)

theorem goes_principal {bs : List UInt8} (hle : bs.length ≤ maxPrincipal) : Goes (principal bs) := by
  unfold principal
  rw [if_neg (Nat.not_lt.mpr hle)]
  exact goes_pure.then ((goes_byte 1).then (goes_blob bs))

theorem goes_func {service : List UInt8} {method : String} (hle : service.length ≤ maxPrincipal) :
    Goes (func service method) :=
  (goes_byte 1).then ((goes_principal hle).then (goes_blob (utf8 method)))

/-- A value is written whole, as far down as the tree goes that it holds. -/
theorem goes_valueWithin : ∀ {fuel k : Nat} {v : ValueId} {d : Datum} {t : TypeId},
    s.Holds fuel v d → w.Types k d t → Goes (valueWithin s fuel v)
  | fuel + 1, k + 1, v, d, t, ⟨x, hx, hshow⟩, ⟨r, n, hs, hadm⟩ => by
    refine goes_answer hx ?_
    cases hshow with
    | null => exact goes_pure
    | reserved => exact goes_pure
    | bool b => exact goes_byte _
    | nat hb => exact goes_answer hb (goes_bytes _)
    | int hb => exact goes_answer hb (goes_bytes _)
    | fixed m => exact goes_bytes _
    | text ht => exact goes_answer ht (goes_blob _)
    | blob hb => exact goes_answer hb (goes_blob _)
    | none => exact goes_byte _
    | principal hb =>
      cases hadm with
      | principal hle => exact goes_answer hb (goes_principal hle)
    | service hb =>
      cases hadm with
      | service hle => exact goes_answer hb (goes_principal hle)
    | func hb ht =>
      cases hadm with
      | func hle => exact goes_answer hb (goes_answer ht (goes_func hle))
    | some hv =>
      cases hadm with
      | some hd => exact (goes_byte 1).then (goes_valueWithin hv hd)
    | vec hvs =>
      cases hadm with
      | vec _ hds =>
        refine (goes_bytes _).then (goes_items fun v hv => ?_)
        obtain ⟨d, hd, hvd⟩ := forall₂_partner hvs.flip v hv
        exact goes_valueWithin hvd (hds d hd)
    | record hfs =>
      cases hadm with
      | record hds hperm horder =>
        refine goes_items fun f hf => ?_
        obtain ⟨d, hd, -, hfd⟩ := forall₂_partner hfs.flip f hf
        have hmem := hperm.mem_iff.mp ((inLabelOrder?_perm horder).mem_iff.mp hd)
        obtain ⟨g, -, -, htypes⟩ := forall₂_partner hds d hmem
        exact goes_valueWithin hfd htypes
    | variant _ hv =>
      cases hadm with
      | variant _ hd => exact (goes_bytes _).then (goes_valueWithin hv hd)

theorem goes_value (hd : s.Holds depth v d) (ht : w.Types k d t) : Goes (value s v) :=
  goes_valueWithin hd.bounded.succ ht

end Output

end TypedWire
