import TypedWire.Proofs.Growth

/-! Runs that are cut short by a budget. Of two runs the one that may nest less deep does the same as the
    other, step by step, until its budget is spent; and there it gives up for that, wherever in the other
    run it stands. So no answer that it gives is owed to the budget. -/

namespace TypedWire.Action

variable {σ α β ι : Type} {x y : Action σ α} {f g : α → Action σ β} {s : σ}

/-- From every state `x` does what `y` does, or gives up because a budget is spent. -/
def Cuts (x y : Action σ α) : Prop := ∀ s, x s = y s ∨ ∃ s', x s = .error .overflow s'

theorem cuts_refl (x : Action σ α) : Cuts x x := fun _ => .inl rfl

/-- A spent budget. -/
theorem cuts_spent (y : Action σ α) : Cuts (fail .overflow) y := fun s => .inr ⟨s, rfl⟩

theorem Cuts.bind (h : Cuts x y) (hf : ∀ a, Cuts (f a) (g a)) : Cuts (x >>= f) (y >>= g) := by
  intro s
  rcases h s with hsame | ⟨s', hover⟩
  · cases hy : y s with
    | ok a s1 =>
      rw [bind_run (hsame.trans hy), bind_run hy]
      exact hf a s1
    | error e s1 =>
      have hx : (x >>= f) s = .error e s1 := bind_eq_error.mpr (.inl (hsame.trans hy))
      have hy : (y >>= g) s = .error e s1 := bind_eq_error.mpr (.inl hy)
      exact .inl (hx.trans hy.symm)
  · exact .inr ⟨s', bind_eq_error.mpr (.inl hover)⟩

/-- What is done first is the same in both runs. -/
theorem cuts_after (x : Action σ α) (hf : ∀ a, Cuts (f a) (g a)) : Cuts (x >>= f) (x >>= g) :=
  (cuts_refl x).bind hf

theorem congruence_cuts : Congruence fun _ (x y : Action σ _) => Cuts x y where
  answer _ := cuts_refl _
  fault _ := cuts_refl _
  seq := Cuts.bind

/-- Where the budget is not spent, the two runs are the same. -/
theorem Cuts.same (h : Cuts x y) (hspare : (x.outcome s).1 ≠ .error .overflow) : x s = y s := by
  rcases h s with hsame | ⟨s', hover⟩
  · exact hsame
  · exact absurd (by simp only [outcome, hover]) hspare

end TypedWire.Action
