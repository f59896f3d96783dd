import TypedWire.Proofs.Number.Decimal
import TypedWire.Proofs.Schema.Scope
import TypedWire.Proofs.Store.Machine
import TypedWire.Proofs.Value.Meets
import TypedWire.Value.Access
import TypedWire.Value.Text

/-! Values that are numbers of any width. Their bytes are kept as they came, so the same number may be there
    with padding or without. What is printed of it depends on the number alone; what is read of it as a
    number of 64 bits depends on its padding too, if it has a sign. A natural number that is reshaped to an
    integer stays the same number. -/

namespace TypedWire

/-- The sorts of numbers of any width. -/
inductive NumberSort where
  | nat
  | int
  deriving DecidableEq

namespace NumberSort

/-- The value of a number. -/
def node : NumberSort → Span → Value
  | .nat => .nat
  | .int => .int

/-- The number that bytes stand for. -/
def denotes : NumberSort → List UInt8 → Int
  | .nat, bytes => Leb128.unsignedValue bytes
  | .int, bytes => Leb128.signedValue bytes

/-- What is printed behind a numeral. -/
def suffix : NumberSort → String
  | .nat => ""
  | .int => " : int"

end NumberSort

variable {sort sort' : NumberSort} {s s' : Store} {v v' : ValueId} {bytes wide : List UInt8}

/-- The value holds exactly one number, whose bytes are `bytes`. -/
structure Store.Number (s : Store) (sort : NumberSort) (v : ValueId) (bytes : List UInt8) : Prop where
  held : ∃ span, s.valueAt v = .ok (sort.node span) ∧ s.bytesAt span = .ok bytes
  number : Leb128.IsNumber bytes

theorem Store.Number.extends (h : s.Number sort v bytes) (hs : s.Extends s') :
    s'.Number sort v bytes := by
  obtain ⟨span, hv, hb⟩ := h.held
  exact ⟨⟨span, hs.valueAt _ _ hv, hs.bytesAt _ _ hb⟩, h.number⟩

/-! ### Texts -/

theorem Numeral.no_blank {text : List Char} {n : Nat} (h : Numeral text n) : ' ' ∉ text := fun hblank =>
  absurd (h.digits ' ' hblank) (by decide)

theorem SignedNumeral.no_blank {text : List Char} {n : Int} (h : SignedNumeral text n) : ' ' ∉ text := by
  unfold SignedNumeral at h
  split at h
  · obtain ⟨digits, rfl, hdigits⟩ := h
    rw [List.mem_cons, not_or]
    exact ⟨by decide, hdigits.no_blank⟩
  · exact h.no_blank

/-- Numerals tell numbers apart, and what stands behind them tells the sorts apart. -/
theorem SignedNumeral.suffix_iff {text text' : List Char} {n n' : Int} (h : SignedNumeral text n)
    (h' : SignedNumeral text' n') :
    String.ofList text ++ sort.suffix = String.ofList text' ++ sort'.suffix ↔ sort = sort' ∧ n = n' := by
  have hsame : ∀ t : String, String.ofList text ++ t = String.ofList text' ++ t ↔ n = n' := by
    intro t
    rw [← String.toList_inj, String.toList_append, String.toList_append, List.append_left_inj,
      String.toList_ofList, String.toList_ofList, h.eq_iff h']
  have hother : ∀ t t' : List Char, ' ' ∉ t → t ≠ t' ++ NumberSort.int.suffix.toList := by
    rintro _ t' hblank rfl
    exact hblank (List.mem_append_right _ (by decide))
  cases sort <;> cases sort'
  · rw [hsame, eq_self, true_and]
  · refine iff_of_false (fun heq => hother text text' h.no_blank ?_) (by simp)
    simpa [NumberSort.suffix] using congrArg String.toList heq
  · refine iff_of_false (fun heq => hother text' text h'.no_blank ?_) (by simp)
    simpa [NumberSort.suffix] using congrArg String.toList heq.symm
  · rw [hsame, eq_self, true_and]

/-- What is printed of a number. -/
theorem Store.Number.text (h : s.Number sort v bytes) : ∃ text, SignedNumeral text (sort.denotes bytes) ∧
    s.text? v = some (String.ofList text ++ sort.suffix) := by
  obtain ⟨span, hv, hb⟩ := h.held
  cases sort with
  | nat =>
    have hnumeral : SignedNumeral (Decimal.natural bytes).toList (NumberSort.nat.denotes bytes) := by
      rw [SignedNumeral, NumberSort.denotes, if_neg (Int.natCast_nonneg _).not_gt, Int.natAbs_natCast]
      exact Decimal.natural_numeral bytes
    have htext : s.textWithin s.depthBound v = .ok (Decimal.natural bytes) := by
      rw [Store.depthBound, Store.textWithin, hv]
      change (do return Decimal.natural (← s.bytesAt span) : Except Fault String) = _
      rw [hb]
      rfl
    refine ⟨_, hnumeral, ?_⟩
    rw [Store.text?, htext, String.ofList_toList]
    exact congrArg some (String.append_empty).symm
  | int =>
    have htext : s.textWithin s.depthBound v = .ok (Decimal.integer bytes ++ " : int") := by
      rw [Store.depthBound, Store.textWithin, hv]
      change (do return Decimal.integer (← s.bytesAt span) ++ " : int" : Except Fault String) = _
      rw [hb]
      rfl
    refine ⟨_, Decimal.integer_numeral bytes, ?_⟩
    rw [Store.text?, htext, String.ofList_toList]
    rfl

/-- What is printed is the numeral, however the number is stored. -/
theorem Store.Number.text_of (h : s.Number sort v bytes) {text : List Char} {n : Int}
    (htext : SignedNumeral text n) (hn : sort.denotes bytes = n) :
    s.text? v = some (String.ofList text ++ sort.suffix) := by
  obtain ⟨text', hnumeral, hprinted⟩ := h.text
  rw [hprinted, (hnumeral.eq_iff htext).mpr hn]

/-- What is printed of a number of any width, however it is padded, is its numeral: the sign if and only if
    it is negative, then digits, of which the first is not zero unless the number is; and what it is printed
    with says whether it is an integer. So two numbers, wherever they are stored, are printed alike exactly
    if they are of one sort and the same. -/
theorem Store.number_printed (s : Store) (sort : NumberSort) (v : ValueId) (bytes : List UInt8)
    (h : s.Number sort v bytes) :
    ∃ text, s.text? v = some (String.ofList text ++ sort.suffix) ∧
      SignedNumeral text (sort.denotes bytes) ∧
      ('-' ∈ text ↔ sort.denotes bytes < 0) ∧ (sort.denotes bytes = 0 → text = ['0']) ∧
      ∀ (s' : Store) (sort' : NumberSort) (v' : ValueId) (bytes' : List UInt8), s'.Number sort' v' bytes' →
        (s.text? v = s'.text? v' ↔ sort = sort' ∧ sort.denotes bytes = sort'.denotes bytes') := by
  obtain ⟨text, hnumeral, htext⟩ := h.text
  refine ⟨text, htext, hnumeral, hnumeral.sign_iff, fun hzero => ?_, fun s' sort' v' bytes' h' => ?_⟩
  · have hone : SignedNumeral ['0'] 0 := numeral_toDigits 0
    exact (hnumeral.eq_iff hone).mpr hzero
  · obtain ⟨text', hnumeral', htext'⟩ := h'.text
    rw [htext, htext', Option.some.injEq]
    exact hnumeral.suffix_iff hnumeral'

/-- The number `2 ^ 76`, the same with padding, zero with eleven bytes of padding and with ten, and minus one
    with padding. -/
def wideNumbers : Store where
  types := #[.primitive .nat, .primitive .int]
  values := #[.nat ⟨0, 0, 11⟩, .nat ⟨0, 11, 12⟩, .nat ⟨0, 23, 12⟩, .nat ⟨0, 24, 11⟩, .int ⟨0, 35, 2⟩]
  blocks := #[⟨4096, #[0x80, 0x80, 0x80, 0x80, 0x80, 0x80, 0x80, 0x80, 0x80, 0x80, 0x40,
    0x80, 0x80, 0x80, 0x80, 0x80, 0x80, 0x80, 0x80, 0x80, 0x80, 0xc0, 0x00,
    0x80, 0x80, 0x80, 0x80, 0x80, 0x80, 0x80, 0x80, 0x80, 0x80, 0x80, 0x00, 0xff, 0x7f]⟩]

theorem wideNumbers_number : wideNumbers.Number .nat ⟨0⟩ (List.replicate 10 0x80 ++ [0x40]) :=
  ⟨⟨_, rfl, by decide⟩, by decide⟩

theorem wideNumbers_digits : SignedNumeral "75557863725914323419136".toList (2 ^ 76) := by
  have hdigits : "75557863725914323419136".toList = Nat.toDigits 10 (2 ^ 76) := by decide
  rw [hdigits]
  exact numeral_toDigits (2 ^ 76)

theorem wideNumbers_printed : wideNumbers.text? ⟨0⟩ = some "75557863725914323419136" ∧
    wideNumbers.text? ⟨0⟩ = wideNumbers.text? ⟨1⟩ ∧ wideNumbers.text? ⟨0⟩ ≠ wideNumbers.text? ⟨4⟩ := by
  have hpadded : wideNumbers.Number .nat ⟨1⟩ (List.replicate 10 0x80 ++ [0xc0, 0x00]) :=
    ⟨⟨_, rfl, by decide⟩, by decide⟩
  have hminus : wideNumbers.Number .int ⟨4⟩ [0xff, 0x7f] := ⟨⟨_, rfl, by decide⟩, by decide⟩
  obtain ⟨text, hprinted, hnumeral, -, -, hsame⟩ :=
    Store.number_printed wideNumbers .nat ⟨0⟩ _ wideNumbers_number
  have htext : text = "75557863725914323419136".toList :=
    (hnumeral.eq_iff wideNumbers_digits).mpr (by decide)
  refine ⟨?_, (hsame _ _ _ _ hpadded).mpr (by decide), fun heq => ?_⟩
  · rw [hprinted, htext]
    decide
  · exact absurd ((hsame _ _ _ _ hminus).mp heq) (by decide)

/-! ### Putting a number in -/

namespace Store

open TypedWire.Action

/-- The store has room for a value of `n` bytes: its limit allows it, and there is a place for the bytes. -/
structure RoomFor (s : Store) (n : Nat) : Prop where
  limit : ∀ limit, s.limit = some limit → s.charged + n + valueCharge ≤ limit
  place : s.takes s.spare n = true

theorem RoomFor.allows {n : Nat} (h : s.RoomFor n) : s.allows n = true := by
  unfold Store.allows
  cases hlimit : s.limit with
  | none => rfl
  | some limit =>
    have hle := h.limit limit hlimit
    exact decide_eq_true (by omega)

/-- Bytes are charged for, and refused only where there is no room. -/
theorem charges_putBytes (s : Store) (bytes : List UInt8) : Runs (putBytes bytes) s
    (fun _ s' => s'.charged = s.charged + bytes.length) fun _ _ => ¬ s.RoomFor bytes.length := by
  refine runs_bind ?_
  cases hallows : s.allows bytes.length with
  | false =>
    refine runs_of_error (by rw [charge_run, hallows, if_neg Bool.false_ne_true]) fun hroom => ?_
    exact Bool.false_ne_true (hallows.symm.trans hroom.allows)
  | true =>
    refine runs_of_ok (by rw [charge_run, hallows, if_pos rfl]) ?_
    refine runs_bind (runs_of_ok rfl ((runs_place s.spare bytes _).mono ?_ ?_))
    · rintro p s' ⟨hplaces, -⟩
      obtain ⟨blocks, -, rfl⟩ := hplaces.fillsUp
      rfl
    · rintro e s' ⟨-, -, hrefused, -⟩ hroom
      exact Bool.false_ne_true (hrefused.symm.trans hroom.place)

/-- A value is refused only where the limit does not allow it. -/
theorem charges_putValue (s : Store) (x : Value) : Runs (putValue x) s (fun _ _ => True)
    fun _ _ => s.allows valueCharge = false := by
  refine runs_bind ?_
  cases hallows : s.allows valueCharge with
  | false => exact runs_of_error (by rw [charge_run, hallows, if_neg Bool.false_ne_true]) rfl
  | true => exact runs_of_ok (by rw [charge_run, hallows, if_pos rfl]) trivial

/-- A number is put in as it is, and refused only where there is no room for it. -/
theorem meets_putInt (s : Store) (h : Leb128.IsNumber wide) :
    Coerce.Meets (fun e => e = .storeFull ∧ ¬ s.RoomFor wide.length) (putInt wide) s
      fun v s' => s'.Number .int v wide := by
  have hnumber : ∀ s : Store, putNumber wide s = putBytes wide s := by
    intro s
    have hlength : Leb128.readLength wide = .ok wide.length := by rw [Leb128.readLength, h]
    rw [putNumber, answer_run hlength, if_neg (by simp)]
  have hbytes : Runs (putNumber wide) s
      (fun p s' => (s.Pads s' ∧ s'.bytesAt p = .ok wide) ∧ s'.charged = s.charged + wide.length)
      fun e s' => s.Grows s' ∧ e = .storeFull ∧ ¬ s.RoomFor wide.length := by
    unfold Runs
    rw [hnumber]
    refine ((runs_putBytes s wide).and (charges_putBytes s wide)).mono ?_ ?_
    · rintro p s' ⟨⟨hs, hp, -⟩, hcharged⟩
      exact ⟨⟨hs, hp⟩, hcharged⟩
    · rintro e s' ⟨⟨hs, he, -⟩, hfull⟩
      exact ⟨hs.toGrows, he, hfull⟩
  refine runs_bind (hbytes.post_mono ?_)
  rintro p s1 ⟨⟨hs1, hp⟩, hcharged⟩
  refine ((runs_putValue s1 (.int p)).and (charges_putValue s1 _)).mono ?_ ?_
  · rintro v s2 ⟨⟨hs2, hv, -⟩, -⟩
    exact ⟨hs1.toGrows.trans hs2, ⟨⟨p, hv, hs2.bytesAt _ _ hp⟩, h⟩⟩
  · rintro e s2 ⟨⟨rfl, rfl, -⟩, hrefused⟩
    refine ⟨hs1.toGrows, rfl, fun hroom => ?_⟩
    unfold Store.allows at hrefused
    rw [hcharged, hs1.limit] at hrefused
    cases hlimit : s.limit with
    | none =>
      rw [hlimit] at hrefused
      exact absurd hrefused (by simp)
    | some limit =>
      rw [hlimit] at hrefused
      exact of_decide_eq_false hrefused (hroom.limit limit hlimit)

end Store

/-! ### Widening a value -/

namespace Coerce

open TypedWire.Action

variable {env : Env} {wireType expected r r' : TypeId}

/-- A natural number is reshaped to an integer by widening its bytes, and put in anew. -/
theorem meets_coerce_nat (hv : s.Number .nat v bytes) (hwide : Leb128.widen bytes = .ok wide)
    (hnumber : Leb128.IsNumber wide) (h1 : Scope.StandsFor ⟨s, env⟩ wireType r (.primitive .nat))
    (h2 : Scope.StandsFor ⟨s, env⟩ expected r' (.primitive .int)) :
    Meets (fun e => e = .storeFull ∧ ¬ s.RoomFor wide.length) (TypedWire.coerce env v wireType expected) s
      fun v' s' => s'.Number .int v' wide := by
  obtain ⟨span, hnode, hbytes⟩ := hv.held
  obtain ⟨fuel, hfuel⟩ : ∃ fuel, steps s = fuel + 1 :=
    Nat.exists_eq_succ_of_ne_zero (by simp [steps])
  have hroots : r ≠ r' := by
    rintro rfl
    exact absurd (h1.root.node_eq h2.root) (by simp)
  have htypes : wireType ≠ expected := by
    rintro rfl
    exact hroots (h1.root_eq h2)
  have hwiden : Meets (fun e => e = .storeFull ∧ ¬ s.RoomFor wide.length) (widen v) s
      fun v' s' => s'.Number .int v' wide := by
    refine meets_known hnode (meets_known hbytes ?_)
    unfold Meets Runs
    rw [answer_run hwide]
    exact Store.meets_putInt s hnumber
  have hrun : Meets (fun e => e = .storeFull ∧ ¬ s.RoomFor wide.length)
      (within env (fuel + 1) v wireType expected) s fun v' s' => s'.Number .int v' wide := by
    unfold within
    rw [if_neg htypes]
    refine meets_known h1.follow (meets_known h2.follow ?_)
    rw [if_neg hroots]
    exact meets_known h1.node (meets_known h2.node hwiden)
  have hcoerce : TypedWire.coerce env v wireType expected s =
      within env (fuel + 1) v wireType expected s := by
    rw [← hfuel]
    rfl
  unfold Meets Runs
  rw [hcoerce]
  exact hrun

/-- Every natural number, of any width and however it is padded, is reshaped to an integer if the store has
    room for it, and fails for no other reason. The integer has the same value; its bytes are one number,
    longer by a byte at most; and what is printed of it is what is printed of the natural number, with the
    type behind it. -/
theorem coerce_nat (env : Env) (s : Store) (v : ValueId) (wireType expected r r' : TypeId)
    (bytes : List UInt8) (hv : s.Number .nat v bytes)
    (h1 : Scope.StandsFor ⟨s, env⟩ wireType r (.primitive .nat))
    (h2 : Scope.StandsFor ⟨s, env⟩ expected r' (.primitive .int)) :
    ∃ wide, Leb128.IsNumber wide ∧ wide.length ≤ bytes.length + 1 ∧
      Leb128.signedValue wide = Leb128.unsignedValue bytes ∧
      Runs (TypedWire.coerce env v wireType expected) s
        (fun v' s' => s'.Number .int v' wide ∧ s'.Number .nat v bytes ∧
          ∃ text, s.text? v = some text ∧ s'.text? v = some text ∧ s'.text? v' = some (text ++ " : int"))
        fun e _ => e = .storeFull ∧ ¬ s.RoomFor wide.length := by
  obtain ⟨wide, hwide, hnumber, hlength⟩ := Leb128.widen_isNumber hv.number
  have hvalue := Leb128.signedValue_widen hwide
  refine ⟨wide, hnumber, hlength, hvalue, ?_⟩
  refine Runs.mono (meets_coerce_nat hv hwide hnumber h1 h2) (fun v' s' ⟨hs, hv'⟩ => ?_) fun _ _ h => h.2
  have hkept := hv.extends hs.toExtends
  obtain ⟨text, hnumeral, htext⟩ := hv.text
  have hplain : String.ofList text ++ NumberSort.nat.suffix = String.ofList text := String.append_empty
  rw [hplain] at htext
  refine ⟨hv', hkept, String.ofList text, htext, ?_, hv'.text_of hnumeral hvalue⟩
  rw [hkept.text_of hnumeral rfl, hplain]

theorem wideNumbers_room {n : Nat} (hn : n ≤ 12) : wideNumbers.RoomFor n := by
  have hspacious : wideNumbers.Spacious 12 := by decide
  refine ⟨fun limit hlimit => ?_, (hspacious.le hn).takes⟩
  exact absurd (hlimit.symm.trans hspacious.limit) (by simp)

theorem wideNumbers_coerced : ∃ wide v' s',
    TypedWire.coerce ⟨[]⟩ ⟨0⟩ ⟨0⟩ ⟨1⟩ wideNumbers = .ok v' s' ∧ s'.Number .int v' wide ∧
      Leb128.signedValue wide = 2 ^ 76 ∧ s'.text? v' = some "75557863725914323419136 : int" := by
  obtain ⟨wide, -, hlength, hvalue, hrun⟩ := coerce_nat ⟨[]⟩ wideNumbers ⟨0⟩ ⟨0⟩ ⟨1⟩ ⟨0⟩ ⟨1⟩ _
    wideNumbers_number ⟨rfl, rfl⟩ ⟨rfl, rfl⟩
  rcases hrun.ends with ⟨v', s', hc, hv', -, text, htext, -, htext'⟩ | ⟨_, _, -, -, hfull⟩
  · refine ⟨wide, v', s', hc, hv', hvalue.trans (by decide), ?_⟩
    rw [wideNumbers_number.text_of wideNumbers_digits (by decide), Option.some.injEq] at htext
    rw [htext', ← htext]
    decide
  · exact absurd (wideNumbers_room (by simpa using hlength)) hfull

end Coerce

/-! ### Reading a number in 64 bits -/

namespace Store.Number

open TypedWire.Leb128

theorem endsAt (h : s.Number sort v bytes) : EndsAt bytes bytes.length :=
  endsAt_iff.mpr ⟨bytes, [], (List.append_nil bytes).symm, rfl, h.number⟩

/-- A natural number is read if it is below `2 ^ 64`, and is too large if not, however it is padded. -/
theorem unsignedOf_iff (h : s.Number .nat v bytes) :
    (∀ n, s.unsignedOf v = .ok n ↔ n = unsignedValue bytes ∧ n < 2 ^ 64) ∧
      (s.unsignedOf v = .error .overflow ↔ 2 ^ 64 ≤ unsignedValue bytes) := by
  obtain ⟨span, hv, hb⟩ := h.held
  have hread : s.unsignedOf v = (readUnsigned bytes).map Prod.fst := by
    rw [unsignedOf, hv]
    change (do return (← readUnsigned (← s.bytesAt span)).1 : Except Fault Nat) = _
    rw [hb]
    change (do return (← readUnsigned bytes).1 : Except Fault Nat) = _
    cases readUnsigned bytes <;> rfl
  have hvalue : unsignedValue (bytes.take bytes.length) = unsignedValue bytes := by rw [List.take_length]
  by_cases hlt : unsignedValue bytes < 2 ^ 64
  · have hok := readUnsigned_ok_iff.mpr ⟨h.endsAt, hvalue.symm, hlt⟩
    rw [hread, hok]
    refine ⟨fun n => ⟨?_, ?_⟩, iff_of_false (by simp [Except.map]) (Nat.not_le.mpr hlt)⟩
    · rintro ⟨⟩
      exact ⟨rfl, hlt⟩
    · rintro ⟨rfl, -⟩
      rfl
  · have hover := readUnsigned_overflow_iff.mpr (.inl ⟨_, h.endsAt, by rw [hvalue]; omega⟩)
    rw [hread, hover]
    refine ⟨fun n => iff_of_false (by simp [Except.map]) ?_, iff_of_true rfl (by omega)⟩
    rintro ⟨rfl, hn⟩
    exact hlt hn

/-- An integer is read if it has 64 bits and is not padded beyond eleven bytes, and is too large if not. -/
theorem signedOf_iff (h : s.Number .int v bytes) :
    (∀ n, s.signedOf v = .ok n ↔ n = signedValue bytes ∧ IsInt64 n ∧ bytes.length ≤ 11) ∧
      (s.signedOf v = .error .overflow ↔ ¬ IsInt64 (signedValue bytes) ∨ 11 < bytes.length) := by
  obtain ⟨span, hv, hb⟩ := h.held
  have hread : s.signedOf v = (readSigned bytes).map Prod.fst := by
    rw [signedOf, hv]
    change (do return (← readSigned (← s.bytesAt span)).1 : Except Fault Int) = _
    rw [hb]
    change (do return (← readSigned bytes).1 : Except Fault Int) = _
    cases readSigned bytes <;> rfl
  have hvalue : signedValue (bytes.take bytes.length) = signedValue bytes := by rw [List.take_length]
  by_cases hfits : IsInt64 (signedValue bytes) ∧ bytes.length ≤ 11
  · obtain ⟨hint, hlength⟩ := hfits
    have hok := readSigned_ok_iff.mpr ⟨h.endsAt, hlength, hvalue.symm, hint⟩
    rw [hread, hok]
    refine ⟨fun n => ⟨?_, ?_⟩, iff_of_false (by simp [Except.map]) ?_⟩
    · rintro ⟨⟩
      exact ⟨rfl, hint, hlength⟩
    · rintro ⟨rfl, -⟩
      rfl
    · exact not_or.mpr ⟨not_not.mpr hint, Nat.not_lt.mpr hlength⟩
  · have hlarge : ¬ IsInt64 (signedValue bytes) ∨ 11 < bytes.length := by
      rwa [Decidable.not_and_iff_or_not, Nat.not_le] at hfits
    have hover := readSigned_overflow_iff.mpr (.inl ⟨_, h.endsAt, by rw [hvalue]; exact hlarge.symm⟩)
    rw [hread, hover]
    refine ⟨fun n => iff_of_false (by simp [Except.map]) ?_, iff_of_true rfl hlarge⟩
    rintro ⟨rfl, hn⟩
    exact hfits hn

end Store.Number

/-- Below `2 ^ 63`, what a natural number is widened to is longer than eleven bytes only if it was. -/
theorem Leb128.length_widen_le (h : widen bytes = .ok wide) (hsmall : unsignedValue bytes < 2 ^ 63) :
    wide.length ≤ 11 ↔ bytes.length ≤ 11 := by
  obtain ⟨hle, hsucc, hsame⟩ := length_widen h
  by_cases hlong : 10 ≤ bytes.length
  · have hpow : 128 ^ 10 ≤ 128 ^ bytes.length := Nat.pow_le_pow_right (by decide) hlong
    rw [hsame (by omega)]
  · omega

namespace Coerce

open TypedWire.Action

/-- What is read of a natural number in 64 bits, and of the integer that it is reshaped to. The natural number
    is read exactly if it is below `2 ^ 64`; an integer exactly if it has 64 bits and at most eleven bytes;
    and what is not read is too large. So a natural number that is below `2 ^ 63` is read as the same
    number before and after exactly if it has at most eleven bytes; one that is padded beyond that is too
    large after. -/
theorem coerce_nat_read (env : Env) (s : Store) (v : ValueId) (wireType expected r r' : TypeId)
    (bytes : List UInt8) (hv : s.Number .nat v bytes)
    (h1 : Scope.StandsFor ⟨s, env⟩ wireType r (.primitive .nat))
    (h2 : Scope.StandsFor ⟨s, env⟩ expected r' (.primitive .int)) :
    ((∀ n, s.unsignedOf v = .ok n ↔ n = Leb128.unsignedValue bytes ∧ n < 2 ^ 64) ∧
      (s.unsignedOf v = .error .overflow ↔ 2 ^ 64 ≤ Leb128.unsignedValue bytes)) ∧
    ∃ wide, Leb128.IsNumber wide ∧ wide.length ≤ bytes.length + 1 ∧
      Leb128.signedValue wide = Leb128.unsignedValue bytes ∧
      Runs (TypedWire.coerce env v wireType expected) s
        (fun v' s' => s'.Number .int v' wide ∧
          (∀ n, s.unsignedOf v = .ok n → n < 2 ^ 63 →
            if bytes.length ≤ 11 then s'.signedOf v' = .ok n else s'.signedOf v' = .error .overflow) ∧
          (∀ n, s'.signedOf v' = .ok n ↔
            n = Leb128.signedValue wide ∧ Leb128.IsInt64 n ∧ wide.length ≤ 11) ∧
          (s'.signedOf v' = .error .overflow ↔
            ¬ Leb128.IsInt64 (Leb128.signedValue wide) ∨ 11 < wide.length))
        fun e _ => e = .storeFull ∧ ¬ s.RoomFor wide.length := by
  obtain ⟨wide, hwide, hnumber, hlength⟩ := Leb128.widen_isNumber hv.number
  have hvalue := Leb128.signedValue_widen hwide
  refine ⟨hv.unsignedOf_iff, wide, hnumber, hlength, hvalue, ?_⟩
  refine Runs.mono (meets_coerce_nat hv hwide hnumber h1 h2) (fun v' s' ⟨_, hv'⟩ => ?_) fun _ _ h => h.2
  refine ⟨hv', fun n hn hsmall => ?_, hv'.signedOf_iff⟩
  obtain ⟨rfl, -⟩ := (hv.unsignedOf_iff.1 n).mp hn
  have hlength := Leb128.length_widen_le hwide hsmall
  split
  · next hshort =>
    refine (hv'.signedOf_iff.1 _).mpr ⟨hvalue.symm, ?_, hlength.mpr hshort⟩
    rw [Leb128.IsInt64]
    omega
  · next hlong => exact hv'.signedOf_iff.2.mpr (.inr (Nat.lt_of_not_le (mt hlength.mp hlong)))

/-- Zero with ten bytes of padding is read as zero before and after. -/
theorem wideNumbers_read : ∃ v' s', TypedWire.coerce ⟨[]⟩ ⟨3⟩ ⟨0⟩ ⟨1⟩ wideNumbers = .ok v' s' ∧
    wideNumbers.unsignedOf ⟨3⟩ = .ok 0 ∧ s'.signedOf v' = .ok 0 := by
  have hv : wideNumbers.Number .nat ⟨3⟩ (List.replicate 10 0x80 ++ [0x00]) :=
    ⟨⟨_, rfl, by decide⟩, by decide⟩
  obtain ⟨hread, wide, -, hlength, -, hrun⟩ := coerce_nat_read ⟨[]⟩ wideNumbers ⟨3⟩ ⟨0⟩ ⟨1⟩ ⟨0⟩ ⟨1⟩ _
    hv ⟨rfl, rfl⟩ ⟨rfl, rfl⟩
  have hzero : wideNumbers.unsignedOf ⟨3⟩ = .ok 0 := (hread.1 0).mpr ⟨by decide, by decide⟩
  rcases hrun.ends with ⟨v', s', hc, -, hsigned, -⟩ | ⟨_, _, -, -, hfull⟩
  · have hshort := hsigned 0 hzero (by decide)
    rw [if_pos (by decide)] at hshort
    exact ⟨v', s', hc, hzero, hshort⟩
  · exact absurd (wideNumbers_room (by simpa using hlength)) hfull

/-- Zero with eleven bytes of padding is read as zero before, and is too large after. -/
theorem wideNumbers_tooLarge : ∃ v' s', TypedWire.coerce ⟨[]⟩ ⟨2⟩ ⟨0⟩ ⟨1⟩ wideNumbers = .ok v' s' ∧
    wideNumbers.unsignedOf ⟨2⟩ = .ok 0 ∧ s'.signedOf v' = .error .overflow := by
  have hv : wideNumbers.Number .nat ⟨2⟩ (List.replicate 11 0x80 ++ [0x00]) :=
    ⟨⟨_, rfl, by decide⟩, by decide⟩
  have h1 : Scope.StandsFor ⟨wideNumbers, ⟨[]⟩⟩ ⟨0⟩ ⟨0⟩ (.primitive .nat) := ⟨rfl, rfl⟩
  have h2 : Scope.StandsFor ⟨wideNumbers, ⟨[]⟩⟩ ⟨1⟩ ⟨1⟩ (.primitive .int) := ⟨rfl, rfl⟩
  rcases Runs.ends (meets_coerce_nat hv rfl hv.number h1 h2) with ⟨v', s', hc, -, hv'⟩ | ⟨_, _, -, -, -, hfull⟩
  · exact ⟨v', s', hc, (hv.unsignedOf_iff.1 0).mpr ⟨by decide, by decide⟩,
      hv'.signedOf_iff.2.mpr (.inr (by decide))⟩
  · exact absurd (wideNumbers_room (by decide)) hfull

end Coerce

end TypedWire
