import TypedWire.Store.Factory
import TypedWire.Proofs.Schema.Distinct
import TypedWire.Proofs.Store.Extends

/-! Canonical types: fields in the order of their numbers and methods in the order of their names, no
    two alike, and one mode at most, as the factories make them. -/

namespace TypedWire

open TypedWire.Action

/-- The keys of the list increase. -/
def Increasing {α κ : Type} [LT κ] (key : α → κ) (xs : List α) : Prop :=
  xs.Pairwise fun x y => key x < key y

/-- The fields, methods and modes of the node are as a message must have them. -/
def TypeNode.Canonical : TypeNode → Prop
  | .record fields | .variant fields => Increasing (·.label.id) fields
  | .service methods => Increasing Method.name methods
  | .func f => f.modes.length ≤ 1
  | _ => True

section Order

variable {α κ : Type} [DecidableEq κ] [LT κ] [LE κ] {key : α → κ}

/-- In order, and no two neighbours alike: then the keys increase. -/
theorem increasing_of_distinctNeighbours (hlt : ∀ a b : κ, a ≤ b → a ≠ b → a < b)
    (htrans : ∀ a b c : κ, a < b → b < c → a < c) : ∀ {xs : List α},
    xs.Pairwise (fun x y => key x ≤ key y) → distinctNeighbours key xs = true → Increasing key xs
  | [], _, _ => .nil
  | [x], _, _ => List.pairwise_singleton _ _
  | x :: y :: rest, hle, hd => by
    simp only [distinctNeighbours, Bool.and_eq_true, decide_eq_true_eq] at hd
    rw [List.pairwise_cons] at hle
    have hrest := increasing_of_distinctNeighbours hlt htrans hle.2 hd.2
    have hxy := hlt _ _ (hle.1 y List.mem_cons_self) hd.1
    refine List.pairwise_cons.mpr ⟨fun z hz => ?_, hrest⟩
    rcases List.mem_cons.mp hz with rfl | hz
    · exact hxy
    · exact htrans _ _ _ hxy ((List.pairwise_cons.mp hrest).1 z hz)

omit [DecidableEq κ] [LE κ] in
theorem Increasing.nodup {xs : List α} (h : Increasing key xs) (hirr : ∀ a : κ, ¬ a < a) :
    (xs.map key).Nodup := by
  rw [List.nodup_iff_pairwise_ne, List.pairwise_map]
  refine List.Pairwise.imp (fun {x y} hlt (heq : key x = key y) => ?_) h
  exact hirr (key y) (by simpa only [heq] using hlt)

omit [DecidableEq κ] [LE κ] in
/-- There is one order in which the keys increase. -/
theorem Increasing.eq_of_perm {xs ys : List α} (hx : Increasing key xs) (hy : Increasing key ys)
    (hperm : xs.Perm ys) (hasymm : ∀ a b : κ, a < b → ¬ b < a) : xs = ys :=
  hperm.eq_of_pairwise (fun _ _ _ _ h h' => absurd h' (hasymm _ _ h)) hx hy

end Order

/-- In a list of increasing numbers, a number is not less than its place. -/
theorem Increasing.place_le {α : Type} {key : α → UInt32} : ∀ {xs : List α} (least : Nat) {i : Nat}
    {x : α}, Increasing key xs → (∀ y ∈ xs, least ≤ (key y).toNat) → xs[i]? = some x →
    least + i ≤ (key x).toNat
  | y :: ys, least, 0, x, _, hleast, hx => by
    obtain rfl : y = x := by simpa using hx
    exact hleast y List.mem_cons_self
  | y :: ys, least, i + 1, x, hinc, hleast, hx => by
    obtain ⟨hfirst, hrest⟩ := List.pairwise_cons.mp hinc
    have hmore : ∀ z ∈ ys, least + 1 ≤ (key z).toNat := by
      intro z hz
      have hyz := UInt32.lt_iff_toNat_lt.mp (hfirst z hz)
      have hy := hleast y List.mem_cons_self
      omega
    have hplace := Increasing.place_le (least + 1) hrest hmore (by simpa using hx)
    omega

section Label

variable {α : Type} {label : α → Label} {items sorted : List α}

theorem inLabelOrder?_perm (h : inLabelOrder? label items = some sorted) : sorted.Perm items := by
  simp only [inLabelOrder?] at h
  split at h
  · rw [← Option.some.inj h]
    exact List.mergeSort_perm _ _
  · exact absurd h (by simp)

theorem inLabelOrder?_increasing (h : inLabelOrder? label items = some sorted) :
    Increasing (fun x => (label x).id) sorted := by
  simp only [inLabelOrder?] at h
  split at h
  · next hd =>
    rw [← Option.some.inj h]
    refine increasing_of_distinctNeighbours (fun a b => UInt32.lt_of_le_of_ne)
      (fun a b c => UInt32.lt_trans) ?_ hd
    have hsorted : (items.mergeSort fun x y => decide ((label x).id ≤ (label y).id)).Pairwise
        fun x y => decide ((label x).id ≤ (label y).id) = true := List.pairwise_mergeSort
      (fun a b c => by simpa using UInt32.le_trans) (fun a b => by simpa using UInt32.le_total _ _) items
    exact hsorted.imp (by simp)
  · exact absurd h (by simp)

end Label

namespace TypeNode

theorem Canonical.distinct {n : TypeNode} (h : n.Canonical) : n.Distinct := by
  cases n with
  | record fields => exact Increasing.nodup h fun _ => UInt32.lt_irrefl _
  | variant fields => exact Increasing.nodup h fun _ => UInt32.lt_irrefl _
  | service methods => exact Increasing.nodup h fun _ => String.lt_irrefl _
  | _ => trivial

end TypeNode

end TypedWire
