import Mathlib.Data.List.Nodup
import TypedWire.Message.TypeTable
import TypedWire.Proofs.Schema.Scope

/-! Types whose records and variants have each field number once, and whose services each method
    name. All that the factories and the header reader make are such types; a look-up by number or
    name then finds the one field or method that has it. -/

namespace TypedWire

/-- No two fields of the node have the same number, and no two methods the same name. -/
def TypeNode.Distinct : TypeNode → Prop
  | .record fields | .variant fields => (fields.map (·.label.id)).Nodup
  | .service methods => (methods.map (·.name)).Nodup
  | _ => True

instance : DecidablePred TypeNode.Distinct
  | .record fields => inferInstanceAs (Decidable (fields.map (·.label.id)).Nodup)
  | .variant fields => inferInstanceAs (Decidable (fields.map (·.label.id)).Nodup)
  | .service methods => inferInstanceAs (Decidable (methods.map (·.name)).Nodup)
  | .primitive _ | .opt _ | .vec _ | .func _ | .var _ => isTrue trivial

/-- In a list without two equal keys, a look-up by a member's key finds that member. -/
theorem find?_key {α κ : Type} [DecidableEq κ] (key : α → κ) : ∀ {xs : List α} {x : α},
    (xs.map key).Nodup → x ∈ xs → xs.find? (key · = key x) = some x
  | [], _, _, h => by simp at h
  | y :: ys, x, hnd, h => by
    rw [List.map_cons, List.nodup_cons] at hnd
    rcases List.mem_cons.mp h with rfl | hx
    · simp
    · have hne : key y ≠ key x := fun hk => hnd.1 (hk ▸ List.mem_map_of_mem hx)
      rw [List.find?_cons_of_neg (by simpa using hne)]
      exact find?_key key hnd.2 hx

namespace Scope

/-- `u` is met inside `t`: it is `t`, or a part of a node that something met inside `t` stands
    for. -/
inductive Reaches (w : Scope) (t : TypeId) : TypeId → Prop where
  | refl : Reaches w t t
  | part {u r c : TypeId} {n : TypeNode} :
      Reaches w t u → w.StandsFor u r n → c ∈ TypeTable.parts n → Reaches w t c

/-- Every node that is met inside the type is as `P` demands. -/
def Throughout (w : Scope) (P : TypeNode → Prop) (t : TypeId) : Prop :=
  ∀ u r n, w.Reaches t u → w.StandsFor u r n → P n

/-- Every node that is met inside the type has distinct fields and methods. -/
abbrev Distinct (w : Scope) (t : TypeId) : Prop := w.Throughout TypeNode.Distinct t

variable {w : Scope} {P : TypeNode → Prop} {t r u c : TypeId} {n : TypeNode}

theorem Reaches.trans (h : w.Reaches t u) (h' : w.Reaches u c) : w.Reaches t c := by
  induction h' with
  | refl => exact h
  | part _ hs hc ih => exact .part ih hs hc

/-- What is met inside the handle that a type stands for is met inside the type. -/
theorem Reaches.of_root (hs : w.StandsFor t r n) (h : w.Reaches r u) :
    u = r ∨ w.Reaches t u := by
  induction h with
  | refl => exact .inl rfl
  | part _ hs' hc ih =>
    rcases ih with rfl | ih
    · obtain rfl := hs.root.node_eq hs'
      exact .inr (.part .refl hs hc)
    · exact .inr (.part ih hs' hc)

theorem Throughout.node (h : w.Throughout P t) (hs : w.StandsFor t r n) : P n := h t r n .refl hs

theorem Throughout.part (h : w.Throughout P t) (hs : w.StandsFor t r n)
    (hc : c ∈ TypeTable.parts n) : w.Throughout P c :=
  fun u r' n' hu hn => h u r' n' (.trans (.part .refl hs hc) hu) hn

theorem Throughout.root (h : w.Throughout P t) (hs : w.StandsFor t r n) : w.Throughout P r := by
  intro u r' n' hu hn
  rcases hu.of_root hs with rfl | hu
  · exact hs.root.node_eq hn ▸ h.node hs
  · exact h u r' n' hu hn

/-- What holds of a node and throughout its parts holds throughout the type. -/
theorem Throughout.of_parts (hs : w.StandsFor t r n) (hn : P n)
    (hparts : ∀ c ∈ TypeTable.parts n, w.Throughout P c) : w.Throughout P t := by
  have hreach : ∀ u, w.Reaches t u → u = t ∨ ∃ c ∈ TypeTable.parts n, w.Reaches c u := by
    intro u hu
    induction hu with
    | refl => exact .inl rfl
    | part _ hs' hc ih =>
      rcases ih with rfl | ⟨c, hcn, hreach⟩
      · obtain rfl := hs.node_eq hs'
        exact .inr ⟨_, hc, .refl⟩
      · exact .inr ⟨c, hcn, .part hreach hs' hc⟩
  intro u r' n' hu hs'
  rcases hreach u hu with rfl | ⟨c, hcn, hcu⟩
  · exact hs.node_eq hs' ▸ hn
  · exact hparts c hcn u r' n' hcu hs'

/-- What holds of all nodes of a store holds throughout any type. -/
theorem Throughout.of_store (h : ∀ n ∈ w.store.types, P n) (t : TypeId) : w.Throughout P t := by
  intro u r n _ hs
  have hn := hs.node
  simp only [Store.typeAt] at hn
  split at hn
  · next hget =>
    rw [Except.ok.injEq] at hn
    exact hn ▸ h _ (Array.mem_of_getElem? hget)
  · exact absurd hn (by simp)

end Scope

end TypedWire
