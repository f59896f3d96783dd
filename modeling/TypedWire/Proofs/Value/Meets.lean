import TypedWire.Proofs.Growth
import TypedWire.Value.Coerce

/-! Runs that put values into a store, with the faults that they can meet. However such a run ends, the
    store has only grown; that matters where a fault is swallowed and the run goes on. -/

namespace TypedWire.Coerce

open TypedWire.Action

variable {faults faults' : Fault → Prop} {s s1 : Store} {α β : Type} {x : Action Store α}
variable {post : α → Store → Prop} {postB : β → Store → Prop}

/-- However the run ends, the store has grown. It ends in `post`, or with one of the faults. -/
def Meets (faults : Fault → Prop) (x : Action Store α) (s : Store) (post : α → Store → Prop) : Prop :=
  Runs x s (fun a s' => s.Grows s' ∧ post a s') fun e s' => s.Grows s' ∧ faults e

theorem Meets.mono {post' : α → Store → Prop} (h : Meets faults x s post)
    (hpost : ∀ a s', s.Grows s' → post a s' → post' a s') : Meets faults x s post' :=
  Runs.post_mono h fun a s' ⟨hs, ha⟩ => ⟨hs, hpost a s' hs ha⟩

theorem Meets.weaken (h : Meets faults x s post) (hfaults : ∀ e, faults e → faults' e) :
    Meets faults' x s post :=
  Runs.mono h (fun _ _ => id) fun e _ ⟨hs, he⟩ => ⟨hs, hfaults e he⟩

theorem meets_pure {a : α} (h : post a s) : Meets faults (pure a) s post := runs_pure ⟨.refl s, h⟩

theorem meets_fail {e : Fault} (h : faults e) : Meets faults (fail e : Action Store α) s post :=
  runs_fail ⟨.refl s, h⟩

theorem Meets.bind {f : α → Action Store β} (h : Meets faults x s post)
    (hf : ∀ a s1, s.Grows s1 → post a s1 → Meets faults (f a) s1 postB) :
    Meets faults (x >>= f) s postB := by
  refine runs_bind (Runs.post_mono h fun a s1 ⟨hs, ha⟩ => ?_)
  exact Runs.mono (hf a s1 hs ha) (fun _ _ ⟨hs', hb⟩ => ⟨hs.trans hs', hb⟩)
    fun _ _ ⟨hs', he⟩ => ⟨hs.trans hs', he⟩

/-- An answer of the store, whatever it is. -/
theorem meets_look {f : Store → Except Fault α} {g : α → Action Store β}
    (hfault : ∀ e, f s = .error e → faults e) (hg : ∀ a, f s = .ok a → Meets faults (g a) s postB) :
    Meets faults (look f >>= g) s postB := by
  have hlook : Meets faults (look f) s fun a s' => s' = s ∧ f s = .ok a := by
    unfold Meets Runs look
    cases hf : f s with
    | ok a => exact ⟨.refl s, rfl, rfl⟩
    | error e => exact ⟨.refl s, hfault e hf⟩
  refine hlook.bind fun a s1 _ ⟨hs1, ha⟩ => ?_
  subst hs1
  exact hg a ha

/-- An answer of the store that is known. -/
theorem meets_known {f : Store → Except Fault α} {g : α → Action Store β} {a : α} (ha : f s = .ok a)
    (hg : Meets faults (g a) s postB) : Meets faults (look f >>= g) s postB := by
  refine meets_look (fun e he => absurd (ha.symm.trans he) (by simp)) fun b hb => ?_
  rw [ha, Except.ok.injEq] at hb
  exact hb ▸ hg

/-- A value is put in, unless the limit of the store is reached. -/
theorem meets_putValue (x : Value) (hfull : s.limit ≠ none → faults .storeFull) :
    Meets faults (Store.putValue x) s fun v s' => s'.valueAt v = .ok x := by
  refine (Store.runs_putValue s x).mono (fun v s' ⟨hs, hv, _⟩ => ⟨hs, hv⟩) ?_
  rintro e s' ⟨rfl, rfl, hlimit⟩
  exact ⟨.refl s', hfull hlimit⟩

/-- A mismatch is swallowed, and no other fault. -/
theorem meets_orNone {x : Action Store ValueId} {post : ValueId → Store → Prop}
    (h : Meets faults x s post) (hfaults : ∀ e, faults e → e = .invalid ∨ faults' e) :
    Meets faults' (orNone x) s fun o s' => (∃ v, o = some v ∧ post v s') ∨ o = none ∧ faults .invalid := by
  rcases Runs.ends h with ⟨v, s', hx, hs, hv⟩ | ⟨e, s', hx, hs, he⟩
  · have hrun : orNone x s = .ok (some v) s' := by simp only [orNone, hx]
    exact runs_of_ok hrun ⟨hs, .inl ⟨v, rfl, hv⟩⟩
  · by_cases hinvalid : e = .invalid
    · subst hinvalid
      have hrun : orNone x s = .ok none s' := by simp only [orNone, hx]
      exact runs_of_ok hrun ⟨hs, .inr ⟨rfl, he⟩⟩
    · have hrun : orNone x s = .error e s' := by
        unfold orNone
        cases e <;> simp_all
      exact runs_of_error hrun ⟨hs, (hfaults e he).resolve_left hinvalid⟩

/-- The same run on each member of a list: what it gives for one is not lost on the others. -/
theorem meets_mapM {g : β → Action Store α} {P : Store → β → α → Prop}
    (hP : ∀ s s' b a, s.Grows s' → P s b a → P s' b a) : ∀ {bs : List β} {s : Store},
    (∀ b ∈ bs, ∀ s1, s.Grows s1 → Meets faults (g b) s1 fun a s' => P s' b a) →
    Meets faults (bs.mapM g) s fun as s' => List.Forall₂ (P s') bs as
  | [], _, _ => meets_pure .nil
  | b :: bs, s, h => by
    rw [List.forall_mem_cons] at h
    rw [List.mapM_cons]
    refine (h.1 s (.refl s)).bind fun a s1 hs1 ha => ?_
    have hrest := meets_mapM hP (s := s1) fun c hc s2 hs2 => h.2 c hc s2 (hs1.trans hs2)
    exact hrest.bind fun as s2 hs2 has => meets_pure (.cons (hP s1 s2 b a hs2 ha) has)

end TypedWire.Coerce
