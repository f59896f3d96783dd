import Mathlib.Data.Set.Finite.Basic
import Mathlib.Order.WellFounded
import TypedWire.Proofs.Value.Depth

/-! What values are made of, and how deep they nest. A value nests to some depth exactly if all of its nodes
    are in the store and none of them is a part of itself: of finitely many nodes, only so many are met
    on the way down. -/

namespace TypedWire

open Relation

/-- The values that a node is made of. -/
def Value.parts : Value → List ValueId
  | .opt (some inner) => [inner]
  | .vec items => items
  | .record fields => fields.map FieldValue.value
  | .variant _ field => [field.value]
  | _ => []

namespace Store

variable {s : Store} {v u : ValueId} {x : Value} {depth j k : Nat}

/-! ### How deep a value nests -/

/-- The stored value `v` nests at most `depth` nodes deep. What has no parts is one node deep; names, which
    are types, do not count. -/
def Nests (s : Store) : (depth : Nat) → ValueId → Prop
  | 0, _ => False
  | depth + 1, v => ∃ x, s.valueAt v = .ok x ∧ ∀ u ∈ x.parts, s.Nests depth u

instance decidableNests (s : Store) : (depth : Nat) → (v : ValueId) → Decidable (s.Nests depth v)
  | 0, _ => .isFalse id
  | depth + 1, v =>
    match hx : s.valueAt v with
    | .error _ => .isFalse fun ⟨_, hx', _⟩ => nomatch hx.symm.trans hx'
    | .ok x =>
      have := decidableNests s depth
      decidable_of_iff (∀ u ∈ x.parts, s.Nests depth u)
        ⟨fun h => ⟨x, hx, h⟩, fun ⟨_, hx', h⟩ => Except.ok.inj (hx.symm.trans hx') ▸ h⟩

theorem graded_nests (s : Store) : Graded s.Nests where
  zero _ := id
  succ depth := by
    induction depth with
    | zero => exact fun _ h => h.elim
    | succ depth ih =>
      rintro v ⟨x, hx, hparts⟩
      exact ⟨x, hx, fun u hu => ih u (hparts u hu)⟩
  part depth v := by
    rintro ⟨x, hx, hparts⟩ hnot
    by_contra hnone
    push Not at hnone
    exact hnot ⟨x, hx, fun u hu => hnone u (hparts u hu)⟩

theorem Nests.le (hle : j ≤ k) (h : s.Nests j v) : s.Nests k v := s.graded_nests.le hle h

theorem Nests.bounded (h : s.Nests depth v) : s.Nests s.values.size v := by
  have hall : ∀ depth v, s.Nests depth v → v ∈ s.valueIds := by
    rintro (_ | depth) v hv
    · exact hv.elim
    · obtain ⟨x, hx, -⟩ := hv
      exact mem_valueIds hx
  simpa using s.graded_nests.bounded s.valueIds hall h

/-- What each of finitely many values has at some depth, all have at the largest. -/
theorem nests_all : ∀ {us : List ValueId}, (∀ u ∈ us, ∃ depth, s.Nests depth u) →
    ∃ depth, ∀ u ∈ us, s.Nests depth u
  | [], _ => ⟨0, by simp⟩
  | u :: us, h => by
    obtain ⟨⟨j, hj⟩, hus⟩ := List.forall_mem_cons.mp h
    obtain ⟨k, hk⟩ := nests_all hus
    refine ⟨max j k, List.forall_mem_cons.mpr ⟨hj.le (Nat.le_max_left j k), fun u hu => ?_⟩⟩
    exact (hk u hu).le (Nat.le_max_right j k)

/-! ### Values without a circle -/

/-- The node `v` has `u` as a part. -/
def Has (s : Store) (v u : ValueId) : Prop := ∃ x, s.valueAt v = .ok x ∧ u ∈ x.parts

/-- All nodes that the value is made of are in the store, and none of them is a part of itself, however
    far down. -/
structure Acyclic (s : Store) (v : ValueId) : Prop where
  live : ∀ u, ReflTransGen s.Has v u → ∃ x, s.valueAt u = .ok x
  once : ∀ u, ReflTransGen s.Has v u → ¬ TransGen s.Has u u

/-- The nodes of an acyclic value are finitely many, so on the way down there is an end. -/
theorem Acyclic.nests (h : s.Acyclic v) : ∃ depth, s.Nests depth v := by
  let Below := { u // ReflTransGen s.Has v u }
  have : Finite Below := by
    refine Set.Finite.to_subtype (s.valueIds.finite_toSet.subset fun u hu => ?_)
    obtain ⟨x, hx⟩ := h.live u hu
    exact mem_valueIds hx
  let down : Below → Below → Prop := fun a b => TransGen s.Has b.1 a.1
  have : IsTrans Below down := ⟨fun _ _ _ hba hcb => hcb.trans hba⟩
  have : Std.Irrefl down := ⟨fun a => h.once a.1 a.2⟩
  have hdown : WellFounded down := Finite.wellFounded_of_trans_of_irrefl down
  have hall : ∀ a : Below, ∃ depth, s.Nests depth a.1 := by
    intro a
    induction a using hdown.induction with
    | _ a ih =>
      obtain ⟨x, hx⟩ := h.live a.1 a.2
      have hparts : ∀ u ∈ x.parts, ∃ depth, s.Nests depth u := fun u hu =>
        ih ⟨u, a.2.tail ⟨x, hx, hu⟩⟩ (.single ⟨x, hx, hu⟩)
      obtain ⟨depth, hdepth⟩ := nests_all hparts
      exact ⟨depth + 1, x, hx, hdepth⟩
  exact hall ⟨v, .refl⟩

/-- What is reached on the way down nests less deep. -/
theorem Nests.below (h : s.Nests depth v) (hu : TransGen s.Has v u) : ∃ k < depth, s.Nests k u := by
  have hpart : ∀ {j : Nat} {a b : ValueId}, s.Nests j a → s.Has a b → ∃ k < j, s.Nests k b := by
    rintro (_ | j) a b ha ⟨x, hx, hb⟩
    · exact ha.elim
    · obtain ⟨y, hy, hparts⟩ := ha
      obtain rfl : x = y := Except.ok.inj (hx.symm.trans hy)
      exact ⟨j, j.lt_succ_self, hparts b hb⟩
  induction hu with
  | single hlast => exact hpart h hlast
  | tail _ hlast ih =>
    obtain ⟨j, hj, hv⟩ := ih
    obtain ⟨k, hk, hu⟩ := hpart hv hlast
    exact ⟨k, hk.trans hj, hu⟩

theorem Nests.once : ∀ {depth : Nat} {v : ValueId}, s.Nests depth v → ¬ TransGen s.Has v v := by
  intro depth
  induction depth using Nat.strong_induction_on with
  | _ depth ih =>
    intro v h hround
    obtain ⟨k, hk, hv⟩ := h.below hround
    exact ih k hk hv hround

theorem acyclic_iff_nests : s.Acyclic v ↔ ∃ depth, s.Nests depth v := by
  refine ⟨Acyclic.nests, fun ⟨depth, h⟩ => ?_⟩
  have hreached : ∀ u, ReflTransGen s.Has v u → ∃ k, s.Nests (k + 1) u := by
    intro u hu
    obtain ⟨k, hk⟩ : ∃ k, s.Nests k u := by
      rcases reflTransGen_iff_eq_or_transGen.mp hu with rfl | hbelow
      · exact ⟨depth, h⟩
      · obtain ⟨k, -, hk⟩ := h.below hbelow
        exact ⟨k, hk⟩
    exact ⟨k, hk.le k.le_succ⟩
  refine ⟨fun u hu => ?_, fun u hu => ?_⟩
  · obtain ⟨k, x, hx, -⟩ := hreached u hu
    exact ⟨x, hx⟩
  · obtain ⟨k, hk⟩ := hreached u hu
    exact hk.once

end Store

end TypedWire
