import TypedWire.Proofs.Schema.Alias
import TypedWire.Proofs.Schema.Canonical

/-! Settled types: each stands for a canonical node, and so do its parts, and theirs. Nothing that lies
    inside is missing or left open, so any two of them can be compared, and what they unfold to is not
    changed by what is put into the store or bound later. -/

namespace TypedWire

/-! ### Comparisons that end -/

theorem allM_ok {α : Type} {test : α → Except Fault Bool} : ∀ {xs : List α},
    (∀ x ∈ xs, ∃ result, test x = .ok result) → ∃ result, xs.allM test = .ok result
  | [], _ => ⟨true, rfl⟩
  | x :: xs, h => by
    rw [List.forall_mem_cons] at h
    obtain ⟨first, hfirst⟩ := h.1
    simp only [List.allM, Except.bind_eq_ok]
    cases first with
    | false => exact ⟨false, false, hfirst, rfl⟩
    | true =>
      obtain ⟨rest, hrest⟩ := allM_ok h.2
      exact ⟨rest, true, hfirst, hrest⟩

theorem allPairs_ok {α β : Type} {test : α → β → Except Fault Bool} {xs : List α} {ys : List β}
    (h : ∀ x ∈ xs, ∀ y ∈ ys, ∃ result, test x y = .ok result) :
    ∃ result, allPairs test xs ys = .ok result := by
  unfold allPairs
  split
  · exact allM_ok fun (x, y) hxy => h x (List.of_mem_zip hxy).1 y (List.of_mem_zip hxy).2
  · exact ⟨false, rfl⟩

/-- Two nodes can be compared, if their parts can. -/
theorem TypeNode.same_ok {test : TypeId → TypeId → Except Fault Bool} {n m : TypeNode}
    (h : ∀ a ∈ TypeTable.parts n, ∀ b ∈ TypeTable.parts m, ∃ result, test a b = .ok result) :
    ∃ result, n.same test m = .ok result := by
  have hkeyed : ∀ {α κ : Type} [DecidableEq κ] (key : α → κ) (type : α → TypeId) {xs ys : List α},
      (∀ a ∈ xs.map type, ∀ b ∈ ys.map type, ∃ result, test a b = .ok result) →
      ∃ result, allPairs (fun x y => if key x = key y then test (type x) (type y) else .ok false) xs ys =
        .ok result := by
    intro α κ _ key type xs ys hparts
    refine allPairs_ok fun x hx y hy => ?_
    split
    · exact hparts _ (List.mem_map_of_mem hx) _ (List.mem_map_of_mem hy)
    · exact ⟨false, rfl⟩
  unfold TypeNode.same
  split
  · exact h _ (by simp [TypeTable.parts]) _ (by simp [TypeTable.parts])
  · exact h _ (by simp [TypeTable.parts]) _ (by simp [TypeTable.parts])
  · exact hkeyed (fun f : Field => f.label.id) Field.type h
  · exact hkeyed (fun f : Field => f.label.id) Field.type h
  · next f g =>
    split
    · obtain ⟨args, hargs⟩ : ∃ result, allPairs test f.args g.args = .ok result := allPairs_ok
        fun a ha b hb => h a (List.mem_append_left _ ha) b (List.mem_append_left _ hb)
      obtain ⟨results, hresults⟩ : ∃ result, allPairs test f.results g.results = .ok result := allPairs_ok
        fun a ha b hb => h a (List.mem_append_right _ ha) b (List.mem_append_right _ hb)
      simp only [Except.bind_eq_ok]
      cases args with
      | false => exact ⟨false, false, hargs, rfl⟩
      | true => exact ⟨results, true, hargs, hresults⟩
    · exact ⟨false, rfl⟩
  · exact hkeyed Method.name Method.type h
  · exact ⟨_, rfl⟩
  · exact ⟨false, rfl⟩

namespace Scope

/-- Each of the types stands for a canonical node, which is one of them, and so are its parts. -/
def Settled (w : Scope) (own : TypeId → Prop) : Prop :=
  ∀ t, own t → ∃ r n, w.StandsFor t r n ∧ own r ∧ n.Canonical ∧ ∀ c ∈ TypeTable.parts n, own c

variable {w w' v : Scope} {own : TypeId → Prop} {t u r : TypeId} {n : TypeNode}

theorem Settled.extends (h : w.Settled own) (hw : w.Extends w') : w'.Settled own := by
  intro t ht
  obtain ⟨r, n, hs, hr⟩ := h t ht
  exact ⟨r, n, hs.extends hw, hr⟩

theorem Settled.node (h : w.Settled own) (ht : own t) (hs : w.StandsFor t r n) :
    own r ∧ n.Canonical ∧ ∀ c ∈ TypeTable.parts n, own c := by
  obtain ⟨r', n', hs', hr⟩ := h t ht
  obtain rfl := hs.root_eq hs'
  obtain rfl := hs.node_eq hs'
  exact hr

theorem Settled.reaches (h : w.Settled own) (ht : own t) (hu : w.Reaches t u) : own u := by
  induction hu with
  | refl => exact ht
  | part _ hs hc ih => exact (h.node ih hs).2.2 _ hc

/-- What lies inside one of the types is canonical. -/
theorem Settled.canonical (h : w.Settled own) (ht : own t) : w.Throughout TypeNode.Canonical t :=
  fun _ _ _ hu hs => (h.node (h.reaches ht hu) hs).2.1

/-- A tree that one of the types unfolds to later is the one that it unfolds to now. -/
theorem Settled.sameTree (h : w.Settled own) (hw : w.Extends w') (ht : own t)
    (hs : w'.SameTree t v u) : w.SameTree t v u := by
  refine ⟨fun a b => own a ∧ w'.SameTree a v b, fun a b ⟨ha, hab⟩ => ?_, ht, hs⟩
  obtain ⟨r, n, hn, -, -, hparts⟩ := h a ha
  obtain ⟨r', n', q, m, hn', hm, halike⟩ := hab.unfold
  obtain rfl := hn'.node_eq (hn.extends hw)
  exact ⟨r, n', q, m, hn, hm, halike.of_parts fun c hc d hcd => ⟨hparts c hc, hcd⟩⟩

/-- Any two of the types can be compared. -/
theorem Settled.sameWithin (h : w.Settled own) : ∀ (levels : Nat) {a b : TypeId}, own a → own b →
    ∃ result, w.env.sameWithin w.store levels a b = .ok result
  | 0, a, b, _, _ => ⟨_, rfl⟩
  | levels + 1, a, b, ha, hb => by
    obtain ⟨r, n, hs, hr, -, hparts⟩ := h a ha
    obtain ⟨q, m, hs', hq, -, hparts'⟩ := h b hb
    obtain ⟨n0, hn0, -⟩ := hs.typeAt
    obtain ⟨m0, hm0, -⟩ := hs'.typeAt
    unfold Env.sameWithin
    split
    · exact ⟨true, rfl⟩
    rw [hn0, hm0]
    by_cases hname : n0.kind = .var ∧ n0 = m0
    · obtain ⟨hvar, rfl⟩ := hname
      exact ⟨true, by simp [bind, Except.bind, hvar]⟩
    obtain ⟨result, hresult⟩ : ∃ result, n.same (w.env.sameWithin w.store levels) m = .ok result :=
      TypeNode.same_ok fun c hc d hd => h.sameWithin levels (hparts c hc) (hparts' d hd)
    by_cases hroot : r = q
    · exact ⟨true, by simp [bind, Except.bind, hname, hs.follow, hs'.follow, hroot]⟩
    · exact ⟨result, by
        simp [bind, Except.bind, hname, hs.follow, hs'.follow, hroot, hs.node, hs'.node, hresult]⟩

end Scope

end TypedWire
