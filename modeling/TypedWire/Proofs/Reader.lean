import TypedWire.Reader
import TypedWire.Proofs.Number.Numeral
import TypedWire.Proofs.Text.Utf8

/-! Reading back what was written, whatever follows it: for each reader, the bytes that it takes and
    what it gives for them. -/

namespace TypedWire

/-- Bytes, after their number. -/
def sizedBytes (bytes : List UInt8) : List UInt8 := Leb128.encodeUnsigned bytes.length ++ bytes

/-- A principal or a reference to a service. -/
def principalBytes (bytes : List UInt8) : List UInt8 := 1 :: sizedBytes bytes

/-- A reference to a function. -/
def funcBytes (service : List UInt8) (method : String) : List UInt8 :=
  1 :: (principalBytes service ++ sizedBytes (utf8 method))

/-! ### Numbers of fixed width -/

namespace FixedNumber

theorem length_lowBytes : ∀ width n : Nat, (lowBytes width n).length = width
  | 0, _ => rfl
  | width + 1, n => by rw [lowBytes, List.length_cons, length_lowBytes width]

theorem length_bytes (n : FixedNumber) : n.bytes.length = n.kind.width := length_lowBytes _ _

theorem value_lowBytes : ∀ width n : Nat,
    (lowBytes width n).foldr (fun b m => b.toNat + 256 * m) 0 = n % 256 ^ width
  | 0, n => by rw [Nat.pow_zero, Nat.mod_one]; rfl
  | width + 1, n => by
    have hbyte : n % 256 < 256 := Nat.mod_lt _ (by omega)
    rw [lowBytes, List.foldr_cons, value_lowBytes width, Leb128.toNat_ofNat_of_lt hbyte, Nat.pow_succ',
      Nat.mod_mul]

theorem ofBytes_bytes (n : FixedNumber) : ofBytes n.kind n.bytes = n := by
  obtain ⟨kind, bits⟩ := n
  simp only [ofBytes, bytes, value_lowBytes]
  have hpow : 256 ^ kind.width = 2 ^ kind.bits := by
    rw [Fixed.bits, Nat.pow_mul]
  rw [hpow, Nat.mod_eq_of_lt bits.isLt, BitVec.ofNat_toNat, BitVec.setWidth_eq]

end FixedNumber

namespace Reader

variable {α β : Type} {x : Action Reader α} {f : α → Action Reader β} {a : α} {b : β}
variable {bytes more : List UInt8}

/-- Where `bytes` come next, `x` takes them and no more, and gives `a`. -/
def Reads (x : Action Reader α) (bytes : List UInt8) (a : α) : Prop :=
  ∀ (offset : Nat) (rest : List UInt8),
    x ⟨offset, some (bytes ++ rest)⟩ = .ok a ⟨offset + bytes.length, some rest⟩

theorem reads_pure (a : α) : Reads (pure a) [] a := fun _ _ => rfl

theorem Reads.bind (h : Reads x bytes a) (hf : Reads (f a) more b) :
    Reads (x >>= f) (bytes ++ more) b := by
  intro offset rest
  rw [Action.bind_eq_ok]
  refine ⟨a, ⟨offset + bytes.length, some (more ++ rest)⟩, ?_, ?_⟩
  · rw [List.append_assoc]
    exact h offset (more ++ rest)
  · rw [List.length_append, ← Nat.add_assoc]
    exact hf (offset + bytes.length) rest

/-- What follows takes nothing more. -/
theorem Reads.last (h : Reads x bytes a) (hf : Reads (f a) [] b) : Reads (x >>= f) bytes b := by
  have hall := h.bind hf
  rwa [List.append_nil] at hall

theorem reads_next {read : List UInt8 → Except Fault (α × Nat)}
    (h : ∀ rest, read (bytes ++ rest) = .ok (a, bytes.length)) : Reads (next read) bytes a := by
  intro offset rest
  simp only [next, h, List.drop_left]

theorem reads_bytes (bytes : List UInt8) : Reads (Reader.bytes bytes.length) bytes bytes :=
  reads_next fun rest => by simp

theorem reads_byte (b : UInt8) : Reads byte [b] b := reads_next fun _ => rfl

theorem reads_unsigned {v : Nat} (h : Leb128.Unsigned bytes v) : Reads unsigned bytes v :=
  reads_next h.read

theorem reads_signed {v : Int} (h : Leb128.Signed bytes v) : Reads signed bytes v := reads_next h.read

theorem reads_number (h : Leb128.IsNumber bytes) : Reads number bytes bytes :=
  reads_next fun rest => by simp [Leb128.readLength_append h, bind, Except.bind, pure, Except.pure]

theorem reads_fixed (n : FixedNumber) : Reads (Reader.fixed n.kind) n.bytes n := by
  have hbytes : Reads (Reader.bytes n.kind.width) n.bytes n.bytes := by
    have hread := reads_bytes n.bytes
    rwa [FixedNumber.length_bytes] at hread
  have hnumber : Reads (Reader.fixed n.kind) n.bytes (.ofBytes n.kind n.bytes) :=
    hbytes.last (reads_pure _)
  rwa [FixedNumber.ofBytes_bytes] at hnumber

/-! ### Payloads -/

theorem reads_text {s : String} (h : Leb128.Unsigned bytes (utf8 s).length) :
    Reads text (bytes ++ utf8 s) s := by
  refine (reads_unsigned h).bind ((reads_bytes (utf8 s)).last ?_)
  rw [utf8?_utf8]
  exact reads_pure s

theorem reads_principalBody (h : bytes.length ≤ maxPrincipal) :
    Reads principalBody (sizedBytes bytes) bytes := by
  have hlength : bytes.length < 2 ^ 64 := Nat.lt_of_le_of_lt h (by decide)
  refine (reads_unsigned (Leb128.unsigned_encode hlength)).bind ?_
  rw [if_neg (Nat.not_lt.mpr h)]
  exact reads_bytes bytes

theorem reads_principal (h : bytes.length ≤ maxPrincipal) :
    Reads principal (principalBytes bytes) bytes :=
  (reads_byte 1).bind (reads_principalBody h)

theorem reads_referenceFlag : Reads referenceFlag [1] () := (reads_byte 1).last (reads_pure ())

theorem reads_service (h : bytes.length ≤ maxPrincipal) : Reads service (principalBytes bytes) bytes :=
  reads_referenceFlag.bind (reads_principalBody h)

theorem reads_func {method : String} (h : bytes.length ≤ maxPrincipal)
    (hm : (utf8 method).length < 2 ^ 64) :
    Reads func (funcBytes bytes method) (bytes, method) :=
  reads_referenceFlag.bind ((reads_service h).bind
    ((reads_text (Leb128.unsigned_encode hm)).last (reads_pure _)))

end Reader

end TypedWire
