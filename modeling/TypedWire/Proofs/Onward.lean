import TypedWire.Proofs.Session.Decode
import TypedWire.Proofs.Growth
import TypedWire.Proofs.Walk

/-! Reading a value and passing over one only moves on: the reader goes forward, by bytes that were
    left, and what has been charged stays charged. So it is however the run ends. -/

namespace TypedWire

namespace Action

variable {σ α : Type} {R : σ → σ → Prop} {x : Action σ α}

/-- A run on a part of the state. -/
theorem along_lift {τ : Type} (part : σ → τ) (whole : σ → τ → σ) {inner : τ → τ → Prop}
    {y : Action τ α} (hok : ∀ s a t, y (part s) = .ok a t → x s = .ok a (whole s t))
    (herror : ∀ s e t, y (part s) = .error e t → x s = .error e (whole s t))
    (hwhole : ∀ s t, inner (part s) t → R s (whole s t)) (hy : Along inner y) : Along R x := fun s =>
  runs_lift (whole s) (hok s) (herror s)
    (Runs.mono (hy (part s)) (fun _ t ⟨ht, _⟩ => ⟨hwhole s t ht, trivial⟩) fun _ t => hwhole s t)

end Action

open TypedWire.Action

/-! ### Readers -/

namespace Reader

/-- `r'` is `r` moved on by some of the bytes that are left. -/
def Onward (r r' : Reader) : Prop :=
  ∃ n ≤ r.remaining, r' = ⟨r.offset + n, r.unread.map (List.drop n)⟩

theorem remaining_drop (r : Reader) (n : Nat) :
    remaining ⟨r.offset + n, r.unread.map (List.drop n)⟩ = r.remaining - n := by
  obtain ⟨offset, _ | front⟩ := r
  · exact (Nat.zero_sub n).symm
  · exact List.length_drop

instance : IsPreorder Reader Onward where
  refl := by
    rintro ⟨offset, _ | front⟩
    · exact ⟨0, Nat.zero_le _, rfl⟩
    · exact ⟨0, Nat.zero_le _, rfl⟩
  trans := by
    rintro r _ _ ⟨n, hn, rfl⟩ ⟨m, hm, rfl⟩
    rw [remaining_drop] at hm
    refine ⟨n + m, by omega, ?_⟩
    obtain ⟨offset, _ | front⟩ := r
    · simp [Nat.add_assoc]
    · simp [Nat.add_assoc]

variable {r r' : Reader} {α : Type}

theorem Onward.offset_le (h : r.Onward r') : r.offset ≤ r'.offset := by
  obtain ⟨n, -, rfl⟩ := h
  exact Nat.le_add_right _ n

/-- A reader of `bytes` stays one, and does not pass their end. -/
theorem Onward.within {bytes : List UInt8} (h : r.Onward r') (hin : r.offset ≤ bytes.length)
    (hr : r = .ofBytes bytes r.offset) :
    r'.offset ≤ bytes.length ∧ r' = .ofBytes bytes r'.offset := by
  obtain ⟨n, hn, rfl⟩ := h
  have hunread : r.unread = some (bytes.drop r.offset) := by
    rw [hr, ofBytes, if_pos hin]
  rw [remaining, hunread, Option.getD_some, List.length_drop] at hn
  have hfits : r.offset + n ≤ bytes.length := by omega
  refine ⟨hfits, ?_⟩
  dsimp only
  rw [hunread, ofBytes, if_pos hfits, Option.map_some, List.drop_drop]

/-- Whatever a reader is put together of, it only moves on. -/
theorem Program.onward {x : Action Reader α} (h : Program x) : Along Onward x := by
  induction h with
  | answer a => exact along_pure a
  | fault e => exact along_fail e
  | seq _ _ hx hf => exact hx.bind hf
  | @next _ read h =>
    rintro ⟨offset, _ | front⟩
    · exact runs_of_error rfl (refl_of Onward _)
    · cases hread : read front with
      | error e => exact runs_of_error (next_eq_error rfl hread) (refl_of Onward _)
      | ok found =>
        obtain ⟨a, n⟩ := found
        exact runs_of_ok (next_eq_ok rfl hread) ⟨⟨n, h.le_length hread, rfl⟩, trivial⟩

end Reader

/-! ### Costs -/

namespace Cost

/-- A total that has been counted as far as totals are counted has not gone down. -/
def Onward (total total' : Nat) : Prop := total ≤ most → total ≤ total' ∧ total' ≤ most

instance : IsPreorder Nat Onward where
  refl _ h := ⟨Nat.le_refl _, h⟩
  trans _ _ _ h h' hle := ⟨Nat.le_trans (h hle).1 (h' (h hle).2).1, (h' (h hle).2).2⟩

theorem onward_add (total n : Nat) : Onward total (add total n) := by
  intro h
  unfold add
  omega

end Cost

/-! ### Decoding -/

namespace Decode

/-- The reader has moved on, and what was charged stays charged. -/
structure Onward (s s' : State) : Prop where
  reader : s.reader.Onward s'.reader
  cost : Cost.Onward s.cost s'.cost

instance : IsPreorder State Onward where
  refl s := ⟨refl_of _ s.reader, refl_of Cost.Onward s.cost⟩
  trans _ _ _ h h' := ⟨trans_of _ h.reader h'.reader, trans_of Cost.Onward h.cost h'.cost⟩

variable {cx : Context} {α : Type}

theorem onward_read {x : Action Reader α} (hx : Along Reader.Onward x) : Along Onward (read x) := by
  refine along_lift State.reader (fun s reader => { s with reader })
    (fun s a t h => ?_) (fun s e t h => ?_) (fun s t h => ⟨h, refl_of Cost.Onward s.cost⟩) hx
  · simp only [read, h]
  · simp only [read, h]

theorem onward_put (x : Action Store α) : Along Onward (put x) := by
  have hx : Along (fun _ _ => True) x := fun s => by
    unfold Leads Runs
    split <;> simp
  refine along_lift State.store (fun s store => { s with store })
    (fun s a t h => ?_) (fun s e t h => ?_)
    (fun s t _ => ⟨refl_of _ s.reader, refl_of Cost.Onward s.cost⟩) hx
  · simp only [put, h]
  · simp only [put, h]

theorem onward_resolve (t : TypeId) : Along Onward (resolve cx t) := by
  refine along_answer (fun s => cx.env.resolve s.store t) fun s => ?_
  unfold resolve
  cases cx.env.resolve s.store t <;> rfl

theorem onward_spend (n : Nat) : Along Onward (spend cx n) := fun s =>
  runs_spend (fun _ _ => ⟨⟨refl_of _ s.reader, Cost.onward_add _ n⟩, trivial⟩)
    fun _ _ => ⟨refl_of _ s.reader, Cost.onward_add _ n⟩

theorem walk_onward (cx : Context) : Walk (fun _ x y => Keeps Onward x y) cx cx where
  toCongruence := congruence_keeps
  read hx := ⟨rfl, onward_read hx.onward⟩
  put x := ⟨rfl, onward_put x⟩
  resolve t := ⟨rfl, onward_resolve t⟩
  offset := ⟨rfl, along_answer (fun s => .ok s.reader.offset) fun _ => rfl⟩
  spend n := ⟨rfl, onward_spend n⟩

/-- Decoding a value only moves on. -/
theorem onward_value (cx : Context) (depth : Nat) (t : TypeId) : Along Onward (value cx depth t) :=
  ((walk_onward cx).value depth t).2

end Decode

/-! ### Skipping -/

namespace Skip

/-- The reader has moved on, and what was charged stays charged. -/
structure Onward (k k' : State) : Prop where
  reader : k.reader.Onward k'.reader
  spent : Cost.Onward k.spent k'.spent

instance : IsPreorder State Onward where
  refl k := ⟨refl_of _ k.reader, refl_of Cost.Onward k.spent⟩
  trans _ _ _ h h' := ⟨trans_of _ h.reader h'.reader, trans_of Cost.Onward h.spent h'.spent⟩

variable {cx : Context} {α : Type}

theorem onward_read {x : Action Reader α} (hx : Along Reader.Onward x) : Along Onward (read x) := by
  refine along_lift State.reader (fun k reader => { k with reader })
    (fun k a t h => ?_) (fun k e t h => ?_) (fun k t h => ⟨h, refl_of Cost.Onward k.spent⟩) hx
  · simp only [read, h]
  · simp only [read, h]

theorem onward_resolve (t : TypeId) : Along Onward (Action.ofExcept (cx.env.resolve cx.store t)) :=
  along_answer (fun _ => cx.env.resolve cx.store t) fun _ => rfl

theorem onward_spend (n : Nat) : Along Onward (spend cx n) := fun k => by
  have hcharged : Onward k { k with spent := Cost.add k.spent n } :=
    ⟨refl_of _ k.reader, Cost.onward_add _ n⟩
  unfold Leads Runs spend
  dsimp only
  split
  · next h =>
    split at h
    · exact absurd h (by simp)
    · exact (EStateM.Result.ok.inj h).2 ▸ ⟨hcharged, trivial⟩
  · next h =>
    split at h
    · exact (EStateM.Result.error.inj h).2 ▸ hcharged
    · exact absurd h (by simp)

theorem walk_onward (cx : Context) : Walk (fun _ x y => Keeps Onward x y) cx cx where
  toCongruence := congruence_keeps
  read hx := ⟨rfl, onward_read hx.onward⟩
  resolve t := ⟨rfl, onward_resolve t⟩
  offset := ⟨rfl, along_answer (fun k => .ok k.reader.offset) fun _ => rfl⟩
  spend n := ⟨rfl, onward_spend n⟩

/-- Passing over a value only moves on. -/
theorem onward_value (cx : Context) (depth : Nat) (t : TypeId) : Along Onward (value cx depth t) :=
  ((walk_onward cx).value depth t).2

end Skip

end TypedWire
