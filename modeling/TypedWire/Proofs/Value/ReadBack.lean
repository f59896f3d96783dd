import TypedWire.Proofs.Schema.Canonical
import TypedWire.Proofs.Schema.Growing
import TypedWire.Proofs.Value.Encode

/-! What a value is read back as. The only thing that changes is a `vec nat8`, which is read as the byte
    string of the same bytes; the fields of a record already lie in the order of their type. -/

namespace TypedWire

/-- The byte that an item of a `vec nat8` is. -/
def Datum.byte : Datum → UInt8
  | .fixed n => .ofNat n.bits.toNat
  | _ => 0

namespace Scope

/-- Whether the type stands for `nat8`. -/
def isByte (w : Scope) (t : TypeId) : Bool :=
  match w.env.resolve w.store t with
  | .ok n => n = .primitive (.fixed .nat8)
  | .error _ => false

/-- What a value of a node is read as, if its parts are read by `read`. -/
def readNode (w : Scope) (read : TypeId → Datum → Datum) : TypeNode → Datum → Datum
  | .opt inner, .opt (some d) => .opt (some (read inner d))
  | .vec e, .vec ds => if w.isByte e then .blob (ds.map Datum.byte) else .vec (ds.map (read e))
  | .record fields, .record ds => .record (fields.zipWith (fun f d => (d.1, read f.type d.2)) ds)
  | .variant fields, .variant index id d =>
    .variant index id ((fields[index]?.map fun f => read f.type d).getD d)
  | _, d => d

/-- What a value of a type is read as, `depth` nodes down. -/
def readBack (w : Scope) : (depth : Nat) → TypeId → Datum → Datum
  | 0, _, d => d
  | depth + 1, t, d =>
    match w.env.resolve w.store t with
    | .ok n => w.readNode (w.readBack depth) n d
    | .error _ => d

variable {w : Scope} {t r e : TypeId} {n : TypeNode} {d : Datum} {depth : Nat}
variable {sub : Datum → TypeId → Prop}

theorem StandsFor.readBack (h : w.StandsFor t r n) :
    w.readBack (depth + 1) t d = w.readNode (w.readBack depth) n d := by
  rw [Scope.readBack, h.resolve]

theorem StandsFor.isByte (h : w.StandsFor t r n) :
    w.isByte t = decide (n = .primitive (.fixed .nat8)) := by
  rw [Scope.isByte, h.resolve]

theorem Types.admits (h : w.Types depth d t) (hs : w.StandsFor t r n) :
    ∃ k, depth = k + 1 ∧ w.Admits (w.Types k) n d := by
  match depth, h with
  | k + 1, ⟨r', n', hs', hadm⟩ =>
    obtain rfl := hs.node_eq hs'
    exact ⟨k, rfl, hadm⟩

/-- A `nat8` is written as its byte. -/
theorem encode_byte (h : w.Admits sub (.primitive (.fixed .nat8)) d) : d.encode = [d.byte] := by
  generalize hp : Primitive.fixed .nat8 = p at h
  cases h with
  | fixed n =>
    obtain ⟨kind, bits⟩ := n
    obtain rfl : Fixed.nat8 = kind := Primitive.fixed.inj hp
    have hlt : bits.toNat < 256 := bits.isLt
    simp [Datum.encode, Datum.byte, FixedNumber.bytes, FixedNumber.lowBytes, Fixed.width,
      Nat.mod_eq_of_lt hlt]
  | _ => exact absurd hp (by simp)

theorem encodeItems_bytes (hs : w.StandsFor e r (.primitive (.fixed .nat8))) : ∀ {ds : List Datum},
    (∀ d ∈ ds, w.Types depth d e) → Datum.encodeItems ds = ds.map Datum.byte
  | [], _ => rfl
  | d :: ds, h => by
    rw [List.forall_mem_cons] at h
    obtain ⟨k, -, hadm⟩ := h.1.admits hs
    rw [Datum.encodeItems, encode_byte hadm, encodeItems_bytes hs h.2]
    rfl

/-- The fields of a record lie in the order of the fields of its type, whatever order they were handed
    over in. -/
theorem Admits.record_ordered {fields : List Field} {ds : List (UInt32 × Datum)}
    (hc : Increasing (·.label.id) fields) (h : w.Admits sub (.record fields) (.record ds)) :
    List.Forall₂ (fun f d => f.label.id = d.1 ∧ sub d.2 f.type) fields ds := by
  cases h with
  | @record _ ordered given _ hfields hperm horder =>
    have hkeys : fields.map (·.label.id) = ordered.map (·.1) := by
      rw [← List.forall₂_eq_eq_eq, List.forall₂_map_left_iff, List.forall₂_map_right_iff]
      exact hfields.imp fun _ _ h => h.1
    have hordered : Increasing (·.1) ordered := by
      have hlt : (ordered.map (·.1)).Pairwise (· < ·) := hkeys ▸ List.pairwise_map.mpr hc
      exact List.pairwise_map.mp hlt
    have hds : Increasing (·.1) ds := inLabelOrder?_increasing horder
    have heq : ds = ordered := hds.eq_of_perm hordered ((inLabelOrder?_perm horder).trans hperm)
      fun _ _ => UInt32.lt_asymm
    rwa [heq]

/-! ### Values keep their types -/

theorem Admits.extends {w' : Scope} {sub' : Datum → TypeId → Prop} (hw : w.Extends w')
    (hsub : ∀ d t, sub d t → sub' d t) (h : w.Admits sub n d) : w'.Admits sub' n d := by
  cases h with
  | null => exact .null
  | reserved => exact .reserved
  | bool b => exact .bool b
  | nat hnum hpay => exact .nat hnum hpay
  | int hnum hpay => exact .int hnum hpay
  | fixed m => exact .fixed m
  | text hpay => exact .text hpay
  | principal hle => exact .principal hle
  | blob hs hpay => exact .blob (hs.extends hw) hpay
  | none inner => exact .none inner
  | some hd => exact .some (hsub _ _ hd)
  | vec hlen hall => exact .vec hlen fun d hd => hsub _ _ (hall d hd)
  | record hds hperm horder =>
    exact .record (hds.imp fun _ _ hfd => ⟨hfd.1, hsub _ _ hfd.2⟩) hperm horder
  | variant hf hd => exact .variant hf (hsub _ _ hd)
  | service hle => exact .service hle
  | func hle hpay => exact .func hle hpay

theorem Types.extends {w' : Scope} (hw : w.Extends w') : ∀ {depth : Nat} {d : Datum} {t : TypeId},
    w.Types depth d t → w'.Types depth d t
  | 0, _, _, h => h
  | _ + 1, _, _, ⟨r, n, hs, hadm⟩ => ⟨r, n, hs.extends hw, hadm.extends hw fun _ _ => Types.extends hw⟩

end Scope

end TypedWire
