import TypedWire.Message.Header
import TypedWire.Proofs.Steady

/-! A header is read by the bytes that it takes: what follows makes no difference to it, and one that
    is cut short is refused as such, though a count is compared with all the bytes that are left. -/

namespace TypedWire.Header

open TypedWire.Action

/-- Two states that differ only in what bytes follow. -/
def Ahead (all more : List UInt8) (s s' : State) : Prop :=
  ∃ r', Reader.Ahead all more s.reader r' ∧ s' = { s with reader := r' }

variable {all more : List UInt8} {α : Type}

theorem steady_read {x : Action Reader α} (h : Reader.Program x) : Steady (Ahead all more) (read x) := by
  have hx : Steady (Reader.Ahead all more) x := h.steady
  refine steady_lift State.reader (fun s reader => { s with reader })
    (fun s a t hrun => ?_) (fun s e t hrun => ?_) ?_ ?_ hx
  · simp only [read, hrun]
  · simp only [read, hrun]
  · rintro s _ ⟨r', hahead, rfl⟩
    exact hahead
  · rintro s _ t t' ⟨r', -, rfl⟩ hahead
    exact ⟨t', hahead, rfl⟩

theorem steady_put (x : Action Store α) : Steady (Ahead all more) (put x) := by
  refine steady_lift State.store (fun s store => { s with store })
    (fun s a t hx => ?_) (fun s e t hx => ?_) ?_ ?_ (steady_refl x)
  · simp only [put, hx]
  · simp only [put, hx]
  · rintro s _ ⟨r', -, rfl⟩
    rfl
  · rintro s _ t _ ⟨r', hahead, rfl⟩ rfl
    exact ⟨r', hahead, rfl⟩

theorem steady_primitiveNode (p : Primitive) : Steady (Ahead all more) (primitiveNode p) := by
  refine Abreast.bind abreast_get ?_
  rintro s _ ⟨r', -, rfl⟩
  dsimp only
  split
  · exact steady_pure _
  · refine Steady.bind (steady_put _) fun type => ?_
    have hmodify : Steady (Ahead all more)
        (modify fun s : State => { s with shared := (p, type) :: s.shared }) := by
      rintro s _ ⟨r', hahead, rfl⟩
      exact runs_of_ok rfl ⟨(), _, rfl, ⟨r', hahead, rfl⟩, rfl⟩
    exact Steady.bind hmodify fun _ => steady_pure type

theorem steady_reference (slots : Array TypeId) : Steady (Ahead all more) (reference slots) := by
  refine Steady.bind (steady_read Reader.program_signed) fun n => ?_
  split
  · split
    · exact steady_pure _
    · exact steady_fail .invalid
  · split
    · exact steady_primitiveNode _
    · exact steady_fail .invalid

/-- A count is compared with the bytes that are left. Where more follow it passes there too, and where
    it does not pass, the bytes have come to an end. -/
theorem steady_count : Steady (Ahead all more) count := by
  refine Steady.bind (steady_read Reader.program_unsigned) fun n => ?_
  refine Abreast.bind abreast_get ?_
  rintro s _ ⟨r', hahead, rfl⟩
  have hmore := hahead.remaining_le
  dsimp only
  by_cases hcut : s.reader.remaining < n
  · intro t t' _
    rw [if_pos hcut]
    exact runs_fail (.inl rfl)
  · rw [if_neg hcut, if_neg (by omega)]
    exact steady_pure n

theorem steady_fields (slots : Array TypeId) : ∀ (count : Nat) (last : Option UInt32),
    Steady (Ahead all more) (fields slots count last)
  | 0, _ => steady_pure []
  | count + 1, last => by
    unfold fields
    refine Steady.bind (steady_read Reader.program_unsigned) fun n => ?_
    refine steady_unless fun _ => steady_unless fun _ => ?_
    refine Steady.bind (steady_reference slots) fun type => ?_
    exact Steady.bind (steady_fields slots count _) fun rest => steady_pure _

theorem steady_methods (slots : Array TypeId) : ∀ (count : Nat) (last : Option String),
    Steady (Ahead all more) (methods slots count last)
  | 0, _ => steady_pure []
  | count + 1, last => by
    unfold methods
    refine Steady.bind (steady_read Reader.program_text) fun name => ?_
    refine steady_unless fun _ => Steady.bind (steady_reference slots) fun type => ?_
    exact Steady.bind (steady_methods slots count (some name)) fun rest => steady_pure _

theorem steady_typeList (slots : Array TypeId) : Steady (Ahead all more) (typeList slots) :=
  Steady.bind steady_count fun n => steady_replicate (steady_reference slots) n

theorem steady_mode : Steady (Ahead all more) mode := by
  refine Steady.bind (steady_read Reader.program_unsigned) fun n => ?_
  split
  · exact steady_pure _
  · exact steady_fail .invalid

theorem steady_signature (slots : Array TypeId) : Steady (Ahead all more) (signature slots) := by
  refine Steady.bind (steady_typeList slots) fun args => ?_
  refine Steady.bind (steady_typeList slots) fun results => ?_
  refine Steady.bind (steady_read Reader.program_unsigned) fun modes => ?_
  exact steady_unless fun _ => Steady.bind (steady_replicate steady_mode modes) fun _ => steady_pure _

theorem steady_node (slots : Array TypeId) : Steady (Ahead all more) (node slots) := by
  refine Steady.bind (steady_read Reader.program_signed) fun n => ?_
  split
  · exact Steady.bind (steady_reference slots) fun _ => steady_pure _
  · exact Steady.bind (steady_reference slots) fun _ => steady_pure _
  · exact Steady.bind steady_count fun k => Steady.bind (steady_fields slots k none) fun _ => steady_pure _
  · exact Steady.bind steady_count fun k => Steady.bind (steady_fields slots k none) fun _ => steady_pure _
  · exact Steady.bind (steady_signature slots) fun _ => steady_pure _
  · exact Steady.bind steady_count fun k => Steady.bind (steady_methods slots k none) fun _ => steady_pure _
  · exact steady_fail .invalid
  · exact steady_fail .invalid
  · split
    · have hskip : Reader.Program (do Reader.skip (← Reader.unsigned)) :=
        .seq Reader.program_unsigned Reader.program_skip
      exact Steady.bind (steady_read hskip) fun _ => steady_pure _
    · exact steady_fail .invalid

theorem steady_putSlots : ∀ (count first : Nat), Steady (Ahead all more) (putSlots first count)
  | 0, _ => steady_pure []
  | count + 1, first => Steady.bind (steady_put _) fun _ =>
      Steady.bind (steady_putSlots count (first + 1)) fun _ => steady_pure _

theorem steady_body : Steady (Ahead all more) body := by
  refine Steady.bind steady_count fun length => ?_
  refine Steady.bind (steady_putSlots length 0) fun slots => ?_
  have hentry : Steady (Ahead all more) (entry slots.toArray) :=
    Steady.bind (steady_node _) fun node => steady_put _
  refine Steady.bind (steady_replicate hentry length) fun table => ?_
  exact Steady.bind (steady_typeList _) fun args => steady_pure _

/-- A header is found alike whatever follows it, and lies within the bytes that it was found in. What is
    too short to hold one is cut off in it. -/
theorem parse_append (bytes more : List UInt8) (store : Store) :
    Runs (parse bytes) store
      (fun found store' => parse (bytes ++ more) store = .ok found store' ∧ found.2 ≤ bytes.length)
      fun e _ => e = .truncated ∨ ∃ store', parse (bytes ++ more) store = .error e store' := by
  unfold Runs parse
  by_cases hshort : bytes.length < magic.length
  · rw [if_pos hshort]
    exact .inl rfl
  have hlong : ¬ (bytes ++ more).length < magic.length := by
    rw [List.length_append]
    omega
  rw [if_neg hshort, if_neg hlong, List.take_append_of_le_length (by omega)]
  by_cases hmagic : bytes.take magic.length ≠ magic
  · rw [if_pos hmagic, if_pos hmagic]
    exact .inr ⟨store, rfl⟩
  rw [if_neg hmagic, if_neg hmagic]
  have hstart : Ahead bytes more ⟨.ofBytes bytes magic.length, store, []⟩
      ⟨.ofBytes (bytes ++ more) magic.length, store, []⟩ :=
    ⟨_, Reader.ahead_ofBytes bytes more (by omega), rfl⟩
  rcases (steady_body _ _ hstart).ends with ⟨header, s, hrun, _, s', hrun', ⟨r', hahead, rfl⟩, rfl⟩ |
    ⟨e, s, hrun, hcut | ⟨s', hrun'⟩⟩
  · rw [hrun, hrun']
    refine ⟨?_, hahead.inside⟩
    show EStateM.Result.ok (header, r'.offset) s.store = _
    rw [hahead.offset_eq]
  · rw [hrun]
    exact .inl hcut
  · rw [hrun, hrun']
    exact .inr ⟨s'.store, rfl⟩

end TypedWire.Header
