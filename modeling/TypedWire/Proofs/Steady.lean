import TypedWire.Proofs.Abreast
import TypedWire.Proofs.Prompt

/-! Reading where more bytes may follow. Whatever is read goes by the bytes that it takes and by no
    others, so it makes no difference to a run that ends well what comes after them; and a run that
    wants more bytes than there are says so, whatever it would have found in them. -/

namespace TypedWire

namespace Action

variable {σ α β : Type} {level : σ → σ → Prop} {x : Action σ α} {f : α → Action σ β}

/-- Runs from states that are level end alike, unless the first finds the bytes at an end. -/
abbrev Steady (level : σ → σ → Prop) (x : Action σ α) : Prop :=
  Abreast level (· = .truncated) x x (· = ·)

theorem steady_pure (a : α) : Steady level (pure a) := abreast_pure rfl

theorem steady_fail (e : Fault) : Steady level (fail e : Action σ α) := abreast_fail e

theorem Steady.bind (h : Steady level x) (hf : ∀ a, Steady level (f a)) : Steady level (x >>= f) := by
  refine Abreast.bind h ?_
  rintro a _ rfl
  exact hf a

/-- What is refused on the way is refused in both runs. -/
theorem steady_unless {e : Fault} {refused : Prop} [Decidable refused] {rest : Unit → Action σ α}
    (h : ∀ u, Steady level (rest u)) :
    Steady level (if refused then fail e >>= rest else rest ()) := by
  split
  · exact Steady.bind (steady_fail e) h
  · exact h ()

theorem steady_replicate (h : Steady level x) (count : Nat) : Steady level (replicate count x) :=
  congruence_abreast.replicate h count

/-- An answer that states which are level give alike. -/
theorem steady_answer {y : σ → Except Fault α} (hx : ∀ s, x s = ofExcept (y s) s)
    (hy : ∀ s t, level s t → y s = y t) : Steady level x := by
  intro s t hlevel
  have hsame : x t = ofExcept (y s) t := by rw [hx, hy s t hlevel]
  unfold Runs
  rw [hx, hsame]
  cases y s with
  | ok a => exact ⟨a, t, rfl, hlevel, rfl⟩
  | error e => exact .inr ⟨t, rfl⟩

theorem steady_refl (x : Action σ α) : Steady (· = ·) x := abreast_refl x

theorem abreast_get {spared : Fault → Prop} : Abreast level spared get get level :=
  fun _ t hlevel => runs_of_ok rfl ⟨t, t, rfl, hlevel, hlevel⟩

/-- A run on a part of the state. -/
theorem steady_lift {τ : Type} (part : σ → τ) (whole : σ → τ → σ) {inner : τ → τ → Prop}
    {y : Action τ α} (hok : ∀ s a t, y (part s) = .ok a t → x s = .ok a (whole s t))
    (herror : ∀ s e t, y (part s) = .error e t → x s = .error e (whole s t))
    (hpart : ∀ s s', level s s' → inner (part s) (part s'))
    (hwhole : ∀ s s' t t', level s s' → inner t t' → level (whole s t) (whole s' t'))
    (hy : Steady inner y) : Steady level x := by
  intro s s' hlevel
  rcases (hy _ _ (hpart s s' hlevel)).ends with ⟨a, t, hrun, _, t', hrun', ht, rfl⟩ |
    ⟨e, t, hrun, hcut | ⟨t', hrun'⟩⟩
  · exact runs_of_ok (hok s a t hrun) ⟨a, _, hok s' a t' hrun', hwhole s s' t t' hlevel ht, rfl⟩
  · exact runs_of_error (herror s e t hrun) (.inl hcut)
  · exact runs_of_error (herror s e t hrun) (.inr ⟨_, herror s' e t' hrun'⟩)

end Action

namespace Reader

open TypedWire.Action

/-- Two readers at the same place: one of `bytes`, the other where `more` follows. -/
structure Ahead (bytes more : List UInt8) (r r' : Reader) : Prop where
  inside : r.offset ≤ bytes.length
  short : r = .ofBytes bytes r.offset
  long : r' = .ofBytes (bytes ++ more) r.offset

variable {all more : List UInt8} {r r' : Reader} {α : Type} {n : Nat}

theorem ahead_ofBytes (all more : List UInt8) (h : n ≤ all.length) :
    Ahead all more (.ofBytes all n) (.ofBytes (all ++ more) n) :=
  ⟨h, rfl, rfl⟩

theorem Ahead.offset_eq (h : Ahead all more r r') : r'.offset = r.offset := by
  rw [h.long]
  rfl

theorem Ahead.unread (h : Ahead all more r r') : r.unread = some (all.drop r.offset) := by
  rw [h.short, ofBytes, if_pos h.inside]

theorem Ahead.unread' (h : Ahead all more r r') : r'.unread = some (all.drop r.offset ++ more) := by
  have hinside := h.inside
  rw [h.long, ofBytes, if_pos (by rw [List.length_append]; omega), List.drop_append_of_le_length hinside]

theorem Ahead.remaining_le (h : Ahead all more r r') : r.remaining + more.length = r'.remaining := by
  rw [remaining, remaining, h.unread, h.unread', Option.getD_some, Option.getD_some, List.length_append]

section Next

variable {read : List UInt8 → Except Fault (α × Nat)} {front : List UInt8}

theorem Ahead.move (h : Ahead all more r r') (hn : n ≤ (all.drop r.offset).length) :
    Ahead all more ⟨r.offset + n, some ((all.drop r.offset).drop n)⟩
      ⟨r'.offset + n, some ((all.drop r.offset ++ more).drop n)⟩ := by
  have hinside : r.offset ≤ all.length := h.inside
  have hfits : r.offset + n ≤ all.length := by
    rw [List.length_drop] at hn
    omega
  have hfits' : r.offset + n ≤ (all ++ more).length := by
    rw [List.length_append]
    omega
  refine ⟨hfits, ?_, ?_⟩
  · rw [ofBytes, if_pos hfits, List.drop_drop]
  · rw [ofBytes, if_pos hfits', List.drop_append_of_le_length hn, List.drop_drop,
      List.drop_append_of_le_length hfits, h.offset_eq]

theorem steady_next (h : Prompt read) : Steady (Ahead all more) (next read) := by
  intro r r' hahead
  rcases h (all.drop r.offset) more with hcut | ⟨hsame, hwithin⟩
  · exact runs_of_error (next_eq_error hahead.unread hcut) (.inl rfl)
  · cases hread : read (all.drop r.offset) with
    | ok found =>
      obtain ⟨a, n⟩ := found
      have hlong := next_eq_ok hahead.unread' (hsame.trans hread)
      exact runs_of_ok (next_eq_ok hahead.unread hread)
        ⟨a, _, hlong, hahead.move (hwithin a n hread), rfl⟩
    | error e =>
      have hlong := next_eq_error hahead.unread' (hsame.trans hread)
      exact runs_of_error (next_eq_error hahead.unread hread) (.inr ⟨r', hlong⟩)

end Next

/-- Whatever a reader is put together of, it reads alike. -/
theorem Program.steady {x : Action Reader α} (h : Program x) : Steady (Ahead all more) x := by
  induction h with
  | answer a => exact steady_pure a
  | fault e => exact steady_fail e
  | seq _ _ hx hf => exact Steady.bind hx hf
  | next h => exact steady_next h

end Reader

end TypedWire
