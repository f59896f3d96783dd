import Mathlib.Data.List.Perm.Subperm
import TypedWire.Proofs.Value.Datum

/-! How deep a stored value can nest: no deeper than there are value nodes, since on the way down no
    node is met twice. The same count bounds any property that is said level by level and has only so
    many things that it can be said of. -/

namespace TypedWire

/-- A property said level by level: what has it at some level has it at all higher ones, and what has it
    above the lowest but not below stands on something that has it one level down but not below. -/
structure Graded {α : Type} (P : Nat → α → Prop) : Prop where
  zero : ∀ a, ¬ P 0 a
  succ : ∀ depth a, P depth a → P (depth + 1) a
  part : ∀ depth a, P (depth + 2) a → ¬ P (depth + 1) a → ∃ b, P (depth + 1) b ∧ ¬ P depth b

/-- The property holds one level up, and not below. -/
def Steep {α : Type} (P : Nat → α → Prop) (depth : Nat) (a : α) : Prop := P (depth + 1) a ∧ ¬ P depth a

namespace Graded

variable {α : Type} {P : Nat → α → Prop} {depth j k : Nat} {a : α}

theorem le (h : Graded P) (hle : j ≤ k) (ha : P j a) : P k a := by
  induction hle with
  | refl => exact ha
  | step _ ih => exact h.succ _ _ ih

theorem unique (h : Graded P) (hj : Steep P j a) (hk : Steep P k a) : j = k := by
  rcases Nat.lt_trichotomy j k with hlt | heq | hlt
  · exact absurd (h.le hlt hj.1) hk.2
  · exact heq
  · exact absurd (h.le hlt hk.1) hj.2

/-- What is met on the way down, nothing twice. -/
theorem chain (h : Graded P) : ∀ {depth : Nat} {a : α}, Steep P depth a →
    ∃ as : List α, as.length = depth + 1 ∧ as.Nodup ∧ ∀ b ∈ as, ∃ j ≤ depth, Steep P j b
  | 0, a, ha => ⟨[a], rfl, by simp, by simpa using ha⟩
  | depth + 1, a, ha => by
    obtain ⟨b, hb⟩ := h.part depth a ha.1 ha.2
    obtain ⟨bs, hlen, hnd, hall⟩ := h.chain hb
    refine ⟨a :: bs, by simp [hlen], List.nodup_cons.mpr ⟨fun hmem => ?_, hnd⟩, fun c hc => ?_⟩
    · obtain ⟨j, hj, hsteep⟩ := hall a hmem
      have := h.unique hsteep ha
      omega
    · rcases List.mem_cons.mp hc with rfl | hc
      · exact ⟨depth + 1, Nat.le_refl _, ha⟩
      · obtain ⟨j, hj, hsteep⟩ := hall c hc
        exact ⟨j, by omega, hsteep⟩

/-- Where the property can be said of few things only, it holds at a level as low as their number. -/
theorem bounded (h : Graded P) (all : List α) (hall : ∀ depth a, P depth a → a ∈ all) :
    ∀ {depth : Nat} {a : α}, P depth a → P all.length a
  | 0, a, ha => absurd ha (h.zero a)
  | depth + 1, a, ha => by
    by_cases hless : P depth a
    · exact h.bounded all hall hless
    · obtain ⟨as, hlen, hnd, hsteep⟩ := h.chain ⟨ha, hless⟩
      have hsub : as ⊆ all := fun b hb => by
        obtain ⟨j, -, hb⟩ := hsteep b hb
        exact hall _ b hb.1
      exact h.le (hlen ▸ (List.subperm_of_subset hnd hsub).length_le) ha

end Graded

namespace Store

variable {s : Store} {v : ValueId} {x : Value} {d : Datum} {depth : Nat}

/-- The handles of all value nodes. -/
def valueIds (s : Store) : List ValueId := (List.range s.values.size).map ValueId.mk

@[simp] theorem length_valueIds (s : Store) : s.valueIds.length = s.values.size := by simp [valueIds]

theorem mem_valueIds (h : s.valueAt v = .ok x) : v ∈ s.valueIds := by
  have hlt : v.index < s.values.size := (Array.getElem?_eq_some_iff.mp (valueAt_eq_ok.mp h)).1
  exact List.mem_map.mpr ⟨v.index, List.mem_range.mpr hlt, rfl⟩

/-- The handles of all type nodes. -/
def typeIds (s : Store) : List TypeId := (List.range s.types.size).map TypeId.mk

@[simp] theorem length_typeIds (s : Store) : s.typeIds.length = s.types.size := by simp [typeIds]

theorem mem_typeIds {t : TypeId} {n : TypeNode} (h : s.typeAt t = .ok n) : t ∈ s.typeIds := by
  have hlt : t.index < s.types.size := (Array.getElem?_eq_some_iff.mp (typeAt_eq_ok.mp h)).1
  exact List.mem_map.mpr ⟨t.index, List.mem_range.mpr hlt, rfl⟩

theorem graded_holds (s : Store) : Graded fun depth v => ∃ d, s.Holds depth v d where
  zero v := fun ⟨_, hd⟩ => hd
  succ depth v := fun ⟨d, hd⟩ => ⟨d, hd.le (Nat.le_succ depth)⟩
  part depth v := by
    rintro ⟨d, x, hx, hshow⟩ hnot
    by_contra hnone
    push Not at hnone
    refine hnot ⟨d, x, hx, hshow.mono (.refl s) fun u e hu => ?_⟩
    obtain ⟨e', hu'⟩ := hnone u ⟨e, hu⟩
    exact (hu'.le (Nat.le_succ depth)).functional hu ▸ hu'

/-- A stored value nests no deeper than there are value nodes. -/
theorem Holds.bounded (h : s.Holds depth v d) : s.Holds s.values.size v d := by
  have hall : ∀ depth v, (∃ d, s.Holds depth v d) → v ∈ s.valueIds := by
    rintro (_ | depth) v ⟨d, hd⟩
    · exact hd.elim
    · obtain ⟨x, hx, -⟩ := hd
      exact mem_valueIds hx
  obtain ⟨d', h'⟩ := s.graded_holds.bounded s.valueIds hall ⟨d, h⟩
  rw [length_valueIds] at h'
  exact h.functional h' ▸ h'

end Store

end TypedWire
