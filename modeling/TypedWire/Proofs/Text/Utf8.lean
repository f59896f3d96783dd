import Mathlib.Data.String.Basic
import Mathlib.Tactic.SplitIfs
import TypedWire.Schema.Label

/-! UTF-8. A text is read back from its bytes, and from no others. Texts are ordered as their bytes are: a
    character that comes later has a greater byte where it first differs, also if it takes more bytes. -/

namespace TypedWire

theorem utf8?_utf8 (s : String) : utf8? (utf8 s) = some s := by
  have h : (⟨(utf8 s).toArray⟩ : ByteArray) = s.toByteArray := rfl
  rw [utf8?, h, String.fromUTF8?, dif_pos s.isValidUTF8]
  rfl

theorem utf8?_eq_some {bytes : List UInt8} {s : String} (h : utf8? bytes = some s) : bytes = utf8 s := by
  unfold utf8? String.fromUTF8? at h
  split at h
  · rw [← Option.some.inj h]
    rfl
  · exact absurd h (by simp)

/-! ### Order -/

theorem utf8_eq_flatMap (s : String) : utf8 s = s.toList.flatMap String.utf8EncodeChar := by
  rw [utf8, String.toUTF8_eq_toByteArray, ← String.utf8Encode_toList, List.utf8Encode]
  simp

theorem encodeChar_lt {c d : Char} (h : c < d) (xs ys : List UInt8) :
    String.utf8EncodeChar c ++ xs < String.utf8EncodeChar d ++ ys := by
  have hlt : c.val.toNat < d.val.toNat := h
  have hd : d.val.toNat < 1114112 := by
    have hvalid := d.valid
    simp only [UInt32.isValidChar, Nat.isValidChar] at hvalid
    omega
  have hdiv : ∀ n : Nat, n / 4096 = n / 64 / 64 ∧ n / 262144 = n / 64 / 64 / 64 := by omega
  unfold String.utf8EncodeChar
  simp only [hdiv]
  split_ifs
  all_goals
    simp only [List.cons_append, List.nil_append, List.cons_lt_cons_iff, UInt8.lt_iff_toNat_lt,
      ← UInt8.toNat_inj, UInt8.toNat_ofNat']
    omega

theorem encodeChars_lt {cs ds : List Char} (h : cs < ds) :
    cs.flatMap String.utf8EncodeChar < ds.flatMap String.utf8EncodeChar := by
  induction cs generalizing ds with
  | nil =>
    cases ds with
    | nil => exact absurd h (List.lt_irrefl _)
    | cons d ds =>
      rw [List.flatMap_cons, List.flatMap_nil]
      cases hd : String.utf8EncodeChar d with
      | nil => exact absurd hd String.utf8EncodeChar_ne_nil
      | cons b bytes => exact List.nil_lt_cons _ _
  | cons c cs ih =>
    cases ds with
    | nil => exact absurd h (List.not_lt_nil _)
    | cons d ds =>
      rw [List.flatMap_cons, List.flatMap_cons]
      rcases List.cons_lt_cons_iff.mp h with hcd | ⟨rfl, hrest⟩
      · exact encodeChar_lt hcd _ _
      · exact List.append_left_lt (ih hrest)

/-- Texts are ordered by their bytes. -/
theorem utf8_lt_iff {s t : String} : utf8 s < utf8 t ↔ s < t := by
  rw [utf8_eq_flatMap, utf8_eq_flatMap, String.lt_iff_toList_lt]
  refine ⟨fun h => ?_, encodeChars_lt⟩
  by_contra hnot
  rcases List.le_iff_lt_or_eq.mp (List.not_lt.mp hnot) with hlt | heq
  · exact List.lt_asymm h (encodeChars_lt hlt)
  · rw [heq] at h
    exact List.lt_irrefl _ h

end TypedWire
