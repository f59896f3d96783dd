import TypedWire.Proofs.Schema.Leftover
import TypedWire.Proofs.Schema.Stepwise

/-! What a check leaves assumed, however it ends. It gives up nothing that was assumed before it, and a
    pair of names that it refuses it gives up again; but a pair that it did not refuse stays, be it
    that the pair was accepted inside a derivation that was refused as a whole, or that the derivation
    was broken off. So a check that was refused or broken off may leave more than it found. -/

namespace TypedWire.Subtype

open TypedWire.Action

variable {cx : Context} {s s1 s' : State} {v : Verdict} {depth : Nat} {t1 t2 a b : TypeId}

/-! ### What is left -/

/-- How often a pair is assumed. -/
def State.count (s : State) (a b : TypeId) : Nat := s.assumed.pairs.count (a, b)

/-- A check of what `a` and `b` stand for, by fewer than `depth` steps and with at least what `s`
    assumes, did not refuse them: it accepted them, or was broken off. -/
def Unrefused (cx : Context) (depth : Nat) (s : State) (a b : TypeId) : Prop :=
  ∃ d < depth, ∃ (r1 : TypeId) (n1 : TypeNode) (r2 : TypeId) (n2 : TypeNode) (s1 : State),
    cx.scope.StandsFor a r1 n1 ∧ cx.scope.StandsFor b r2 n2 ∧
    (∀ x y, s.Assumes x y → s1.Assumes x y) ∧ ¬ s1.Assumes a b ∧
    ((fits cx d r1 r2).outcome (s1.assume a b)).1 ≠ .ok .fail

/-- What is assumed in `s` is assumed as often in `s'`; every other pair is assumed in `s'` at most
    once, and only if it was not refused. -/
structure Residue (cx : Context) (depth : Nat) (s s' : State) : Prop where
  keeps : ∀ a b, s.Assumes a b → s'.count a b = s.count a b
  once : ∀ a b, ¬ s.Assumes a b → s'.count a b ≤ 1
  left : ∀ a b, s'.Assumes a b → ¬ s.Assumes a b → Unrefused cx depth s a b

theorem State.assumes_iff_count : s.Assumes a b ↔ 0 < s.count a b := List.count_pos_iff.symm

theorem Unrefused.mono (h : Unrefused cx depth s1 a b) (hs : ∀ x y, s.Assumes x y → s1.Assumes x y)
    {depth' : Nat} (hle : depth ≤ depth') : Unrefused cx depth' s a b := by
  obtain ⟨d, hd, r1, n1, r2, n2, s2, h1, h2, hs2, hnew, hend⟩ := h
  exact ⟨d, by omega, r1, n1, r2, n2, s2, h1, h2, fun x y hxy => hs2 x y (hs x y hxy), hnew, hend⟩

namespace Residue

theorem assumes (h : Residue cx depth s s') (hab : s.Assumes a b) : s'.Assumes a b := by
  rw [State.assumes_iff_count, h.keeps a b hab]
  exact State.assumes_iff_count.mp hab

theorem of_assumed (h : s'.assumed = s.assumed) : Residue cx depth s s' where
  keeps a b _ := by rw [State.count, State.count, h]
  once a b hab := by
    rw [State.assumes_iff_count, State.count] at hab
    rw [State.count, h]
    omega
  left a b hab hnot := absurd (by simpa [State.Assumes, h] using hab) hnot

theorem trans (h : Residue cx depth s s1) (h' : Residue cx depth s1 s') : Residue cx depth s s' where
  keeps a b hab := (h'.keeps a b (h.assumes hab)).trans (h.keeps a b hab)
  once a b hab := by
    by_cases h1 : s1.Assumes a b
    · rw [h'.keeps a b h1]
      exact h.once a b hab
    · exact h'.once a b h1
  left a b hab hnot := by
    by_cases h1 : s1.Assumes a b
    · exact h.left a b h1 hnot
    · exact (h'.left a b hab h1).mono (fun _ _ => h.assumes) (Nat.le_refl depth)

instance : IsPreorder State (Residue cx depth) where
  refl _ := .of_assumed rfl
  trans _ _ _ := Residue.trans

theorem mono {depth' : Nat} (h : Residue cx depth s s') (hle : depth ≤ depth') :
    Residue cx depth' s s' :=
  ⟨h.keeps, h.once, fun a b hab hnot => (h.left a b hab hnot).mono (fun _ _ => id) hle⟩

end Residue

/-! ### A pair of names -/

theorem count_assume (hnew : ¬ s.Assumes t1 t2) (a b : TypeId) :
    (s.assume t1 t2).count a b = s.count a b + if (t1, t2) = (a, b) then 1 else 0 := by
  have hpairs : (s.assume t1 t2).assumed.pairs = (t1, t2) :: s.assumed.pairs := by
    simp only [State.assume, Assumptions.insert]
    rw [if_neg (by rwa [contains_iff])]
  rw [State.count, hpairs, List.count_cons, State.count]
  simp

/-- A new pair that the check of what it stands for has not refused is one more that is left. -/
theorem Residue.opened {r1 r2 : TypeId} {n1 n2 : TypeNode} (hnew : ¬ s.Assumes t1 t2)
    (h1 : cx.scope.StandsFor t1 r1 n1) (h2 : cx.scope.StandsFor t2 r2 n2)
    (hend : ((fits cx depth r1 r2).outcome (s.assume t1 t2)).1 ≠ .ok .fail)
    (h : Residue cx depth (s.assume t1 t2) s') : Residue cx (depth + 1) s s' where
  keeps a b hab := by
    have hne : (t1, t2) ≠ (a, b) := by
      rintro ⟨⟩
      exact hnew hab
    rw [h.keeps a b (assumes_assume.mpr (.inr hab)), count_assume hnew, if_neg hne, Nat.add_zero]
  once a b hab := by
    by_cases heq : (t1, t2) = (a, b)
    · cases heq
      have hzero : s.count t1 t2 = 0 := List.count_eq_zero.mpr hnew
      have hcount := h.keeps _ _ (assumes_assume.mpr (.inl ⟨rfl, rfl⟩))
      rw [count_assume hnew, if_pos rfl, hzero] at hcount
      omega
    · refine h.once a b fun hassumed => (assumes_assume.mp hassumed).elim ?_ hab
      rintro ⟨rfl, rfl⟩
      exact heq rfl
  left a b hab hnot := by
    by_cases heq : (t1, t2) = (a, b)
    · cases heq
      exact ⟨depth, by omega, r1, n1, r2, n2, s, h1, h2, fun _ _ => id, hnew, hend⟩
    · refine (h.left a b hab fun hassumed => (assumes_assume.mp hassumed).elim ?_ hnot).mono
        (fun _ _ hxy => assumes_assume.mpr (.inr hxy)) (Nat.le_succ depth)
      rintro ⟨rfl, rfl⟩
      exact heq rfl

/-- A new pair that is refused is given up, so it is not among what is left. -/
theorem Residue.refused (hnew : ¬ s.Assumes t1 t2) (h : Residue cx depth (s.assume t1 t2) s1) :
    Residue cx (depth + 1) s (s1.drop t1 t2) ∧ ¬ (s1.drop t1 t2).Assumes t1 t2 := by
  have hself : s1.count t1 t2 = 1 := by
    have hzero : s.count t1 t2 = 0 := List.count_eq_zero.mpr hnew
    rw [h.keeps _ _ (assumes_assume.mpr (.inl ⟨rfl, rfl⟩)), count_assume hnew, if_pos rfl, hzero]
  have hgone : (s1.drop t1 t2).count t1 t2 = 0 := by
    have herase : (s1.drop t1 t2).count t1 t2 = s1.count t1 t2 - 1 := List.count_erase_self
    rw [herase, hself]
  have hother : ∀ a b, (a, b) ≠ (t1, t2) → (s1.drop t1 t2).count a b = s1.count a b :=
    fun a b hne => List.count_erase_of_ne hne
  have hnot : ¬ (s1.drop t1 t2).Assumes t1 t2 := by
    rw [State.assumes_iff_count, hgone]
    omega
  refine ⟨⟨fun a b hab => ?_, fun a b hab => ?_, fun a b hab hold => ?_⟩, hnot⟩
  · have hne : (a, b) ≠ (t1, t2) := by
      rintro ⟨⟩
      exact hnew hab
    rw [hother a b hne, h.keeps a b (assumes_assume.mpr (.inr hab)), count_assume hnew,
      if_neg (Ne.symm hne), Nat.add_zero]
  · by_cases heq : (a, b) = (t1, t2)
    · cases heq
      omega
    · rw [hother a b heq]
      refine h.once a b fun hassumed => (assumes_assume.mp hassumed).elim ?_ hab
      rintro ⟨rfl, rfl⟩
      exact heq rfl
  · have hne : ¬ (a = t1 ∧ b = t2) := by
      rintro ⟨rfl, rfl⟩
      exact hnot hab
    refine (h.left a b (assumes_of_drop hab) fun hassumed => ?_).mono
      (fun _ _ hxy => assumes_assume.mpr (.inr hxy)) (Nat.le_succ depth)
    exact (assumes_assume.mp hassumed).elim hne hold

end TypedWire.Subtype
