import TypedWire.Proofs.Budget
import TypedWire.Proofs.Schema.Check
import TypedWire.Proofs.Schema.Stepwise

/-! The nesting budget of a check. A check with the larger budget does the same as one with the smaller,
    until the smaller is spent. A spent budget is a fault and no verdict, so the alternatives at an `opt`,
    which go on where a part is refused, do not go on there. -/

namespace TypedWire.Subtype

open TypedWire.Action

/-- Whatever a check goes on with, it is cut short where a part of it is. -/
theorem statewise_cuts : Statewise Cuts where
  toStepwise := stepwise_of_congruence congruence_cuts
  fault := congruence_cuts.fault
  look test hx hy := by
    refine cuts_after _ fun s => ?_
    split
    · exact hx
    · exact hy
  change _ h := cuts_after _ fun _ => h

theorem cuts_fits (cx : Context) : ∀ {depth depth' : Nat}, depth ≤ depth' → ∀ t1 t2 : TypeId,
    Cuts (fits cx depth t1 t2) (fits cx depth' t1 t2)
  | 0, 0, _, t1, t2 => cuts_refl _
  | 0, depth' + 1, _, t1, t2 => by
    unfold fits
    split
    · exact cuts_refl _
    · exact cuts_spent _
  | depth + 1, 0, hle, _, _ => absurd hle (by omega)
  | depth + 1, depth' + 1, hle, t1, t2 => by
    have ih : ∀ t1 t2, Cuts (fits cx depth t1 t2) (fits cx depth' t1 t2) := cuts_fits cx (by omega)
    exact statewise_cuts.fitsLevel rfl ih fun _ _ _ _ _ _ => cuts_refl _

/-- What a check answers other than that its budget is spent, it answers with every larger budget,
    whatever is assumed when it begins; what it leaves assumed and what it reports are the same too. So a
    spent budget is never taken for a refusal, not even where a refusal would be passed over. -/
theorem fits_deeper (cx : Context) (depth depth' : Nat) (hle : depth ≤ depth') (t1 t2 : TypeId) (s : State)
    (hspare : ((fits cx depth t1 t2).outcome s).1 ≠ .error .overflow) :
    (fits cx depth' t1 t2).outcome s = (fits cx depth t1 t2).outcome s := by
  have hsame : fits cx depth t1 t2 s = fits cx depth' t1 t2 s := (cuts_fits cx hle t1 t2).same hspare
  rw [outcome, outcome, hsame]

/-- Two types under an `opt`, neither of which fits the other. -/
def misfits : Context where
  store := { types := #[.primitive .nat, .primitive .text, .opt ⟨0⟩, .opt ⟨1⟩] }
  env := {}
  topics := { subtype := true }

/-- With a budget of one the contents are not compared, and the `opt` is not accepted for that; with two
    they are, and it is accepted without them. -/
theorem misfits_deeper :
    ((fits misfits 1 ⟨2⟩ ⟨3⟩).outcome {}).1 = .error .overflow ∧
    (fits misfits 2 ⟨2⟩ ⟨3⟩).outcome {} = (.ok .optSpecial, ⟨{}, #[.optSpecial ⟨2⟩ ⟨3⟩]⟩) ∧
    (fits misfits 512 ⟨2⟩ ⟨3⟩).outcome {} = (fits misfits 2 ⟨2⟩ ⟨3⟩).outcome {} := by
  have hrun : (fits misfits 2 ⟨2⟩ ⟨3⟩).outcome {} = (.ok .optSpecial, ⟨{}, #[.optSpecial ⟨2⟩ ⟨3⟩]⟩) := rfl
  exact ⟨rfl, hrun, fits_deeper misfits 2 512 (by decide) ⟨2⟩ ⟨3⟩ {} (by simp [hrun])⟩

end TypedWire.Subtype
